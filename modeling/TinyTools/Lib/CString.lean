import TinyTools.Lib.Decimal
import TinyTools.Lib.Loop

/-!
# Strings of the C library

Pointers into a NUL-terminated string are modelled by the text from the pointer on, so a search
answers the rest of the text from the place found, or none for the null pointer.
-/

namespace TinyTools.Lib

/-- The string that starts a buffer: the bytes in front of the first NUL. -/
def cString (buffer : Bytes) : Bytes := buffer.takeWhile (· != 0)

/-- `strtok`: the token behind leading delimiters, and the text from which the next call goes on,
behind the delimiter that ended the token. -/
def strtok (delimiters text : Bytes) : Option (Bytes × Bytes) :=
  match text.dropWhile (delimiters.contains ·) with
  | [] => none
  | start => some (start.takeWhile (!delimiters.contains ·),
      (start.dropWhile (!delimiters.contains ·)).tail)

/-- A token of an array: where it starts, where the next call goes on, and the array with the
delimiter behind the token overwritten. -/
structure TokenAt where
  /-- The place of the token. -/
  start : ℕ
  /-- The place from which the next call goes on. -/
  next : ℕ
  /-- The array afterwards. -/
  memory : Bytes

/-- `strtok_r` in place, on the string at a position of an array. -/
def strtokAt (delimiters memory : Bytes) (position : ℕ) : Option TokenAt :=
  let text := cString (memory.drop position)
  let start := text.dropWhile (delimiters.contains ·)
  let token := start.takeWhile (!delimiters.contains ·)
  let place := position + (text.length - start.length)
  if start = [] then none
  else if token.length = start.length then some ⟨place, place + token.length, memory⟩
  else some ⟨place, place + token.length + 1, memory.set (place + token.length) 0⟩

/-- `strstr`: the text from the first occurrence of a needle on. -/
def strstr (needle : Bytes) : Bytes → Option Bytes
  | [] => if needle.isEmpty then some [] else none
  | byte :: rest =>
    if needle.isPrefixOf (byte :: rest) then some (byte :: rest) else strstr needle rest

/-- `tolower` in the C locale. -/
def toLower (byte : UInt8) : UInt8 :=
  if 65 ≤ byte.toNat ∧ byte.toNat ≤ 90 then byte + 32 else byte

/-- `strcasestr` compared with the null pointer: a needle occurs, ignoring case. -/
def hasCase (needle text : Bytes) : Bool :=
  (strstr (needle.map toLower) (text.map toLower)).isSome

/-- `strchr`: the text from the first occurrence of a byte on. -/
def strchr (byte : UInt8) (text : Bytes) : Option Bytes :=
  match text.dropWhile (· != byte) with
  | [] => none
  | found => some found

/-- `strcat`: the string of a buffer is continued with a text. -/
def strcat (buffer text : Bytes) : Bytes :=
  cString buffer ++ text ++ 0 :: buffer.drop ((cString buffer).length + text.length + 1)

/-- `sprintf` of a text into a buffer. -/
def printInto (buffer text : Bytes) : Bytes := text ++ 0 :: buffer.drop (text.length + 1)

/-- A word in front of a delimiter is the first token. -/
theorem strtok_word {delimiters word : Bytes} (some_ : word ≠ [])
    (free : ∀ byte ∈ word, delimiters.contains byte = false) {delimiter : UInt8}
    (ends : delimiters.contains delimiter = true) (rest : Bytes) :
    strtok delimiters (word ++ delimiter :: rest) = some (word, rest) := by
  obtain ⟨first, others, rfl⟩ := List.exists_cons_of_ne_nil some_
  have kept : (first :: others ++ delimiter :: rest).dropWhile (delimiters.contains ·) =
      first :: (others ++ delimiter :: rest) := by
    rw [List.cons_append, List.dropWhile_cons, free first List.mem_cons_self, if_neg (by decide)]
  have all : ∀ byte ∈ first :: others, (!delimiters.contains byte) = true := by
    intro byte inside
    rw [free byte inside]; rfl
  rw [strtok, kept]
  show some ((first :: others ++ delimiter :: rest).takeWhile _,
    ((first :: others ++ delimiter :: rest).dropWhile _).tail) = _
  simp only [List.takeWhile_append_of_pos all, List.dropWhile_append_of_pos all,
    List.takeWhile_cons, List.dropWhile_cons, ends, Bool.not_true, Bool.false_eq_true, if_false,
    List.append_nil, List.tail_cons]

/-- A last word is the token, and nothing is left. -/
theorem strtok_last {delimiters word : Bytes} (some_ : word ≠ [])
    (free : ∀ byte ∈ word, delimiters.contains byte = false) :
    strtok delimiters word = some (word, []) := by
  obtain ⟨first, others, rfl⟩ := List.exists_cons_of_ne_nil some_
  have all : ∀ byte ∈ first :: others, (!delimiters.contains byte) = true := by
    intro byte inside
    rw [free byte inside]; rfl
  rw [strtok, List.dropWhile_cons, free first List.mem_cons_self, if_neg (by decide)]
  simp only [List.takeWhile_eq_self_iff.mpr all, List.dropWhile_eq_nil_iff.mpr all, List.tail_nil]

/-- The first token of a cut text is its first word, cut at the same place, and what is left is cut
there too. -/
theorem strtok_take {delimiters word tail : Bytes} (some_ : word ≠ [])
    (free : ∀ byte ∈ word, delimiters.contains byte = false)
    (ends : ∀ byte ∈ tail.head?, delimiters.contains byte = true) {size : ℕ} (more : 0 < size) :
    strtok delimiters ((word ++ tail).take size) =
      some (word.take size, tail.tail.take (size - (word.length + 1))) := by
  by_cases inside : size ≤ word.length
  · have front : word.take size ≠ [] := by
      have long := List.length_pos_of_ne_nil some_
      simpa using ⟨more.ne', some_⟩
    have last := strtok_last front fun byte cut => free byte (List.mem_of_mem_take cut)
    have nothing : size - (word.length + 1) = 0 := by omega
    rw [List.take_append_of_le_length inside, last, nothing, List.take_zero]
  · have whole : word.take size = word := List.take_of_length_le (by omega)
    rw [List.take_append, whole]
    cases tail with
    | nil => simpa using strtok_last some_ free
    | cons delimiter rest =>
      have behind : size - word.length = size - (word.length + 1) + 1 := by omega
      rw [behind, List.take_succ_cons]
      exact strtok_word some_ free (ends delimiter rfl) _

/-- A token is not empty, comes from the text and holds no delimiter. -/
theorem strtok_some {delimiters text token rest : Bytes}
    (found : strtok delimiters text = some (token, rest)) :
    token ≠ [] ∧ ∀ byte ∈ token, byte ∈ text ∧ delimiters.contains byte = false := by
  unfold strtok at found
  cases start : text.dropWhile (delimiters.contains ·) with
  | nil =>
    rw [start] at found
    cases found
  | cons first others =>
    rw [start] at found
    obtain ⟨rfl, -⟩ := Prod.mk.inj (Option.some.inj found)
    have plain : delimiters.contains first = false := by
      have head := List.head?_dropWhile_not (delimiters.contains ·) text
      rw [start] at head
      simpa using head
    constructor
    · rw [List.takeWhile_cons, plain]
      exact List.cons_ne_nil first _
    · intro byte inside
      have origin : byte ∈ text.dropWhile (delimiters.contains ·) :=
        start ▸ (List.takeWhile_prefix _).subset inside
      refine ⟨(List.dropWhile_suffix _).subset origin, ?_⟩
      simpa using List.mem_takeWhile_imp inside

/-- What a search finds occurs in the text. -/
theorem strstr_isSome_iff {needle text : Bytes} :
    (strstr needle text).isSome = true ↔ needle <:+: text := by
  induction text with
  | nil =>
    rw [strstr, List.infix_nil, ← List.isEmpty_iff]
    cases needle.isEmpty with
    | true => exact iff_of_true rfl rfl
    | false => exact iff_of_false (by decide) (by decide)
  | cons first rest ih =>
    rw [strstr, List.infix_cons_iff, ← List.isPrefixOf_iff_prefix, ← ih]
    cases needle.isPrefixOf (first :: rest) with
    | true => exact iff_of_true rfl (Or.inl rfl)
    | false => exact ⟨Or.inr, fun found => found.resolve_left (by decide)⟩

/-- A word with a mark behind it occurs around the only mark of a text when the text in front of the
mark ends with the word. -/
theorem infix_marked {mark : UInt8} {word front back : Bytes} (plainFront : mark ∉ front)
    (plainBack : mark ∉ back) : word ++ [mark] <:+: front ++ mark :: back ↔ word <:+ front := by
  constructor
  · rintro ⟨before, after, whole⟩
    have split : before ++ word ++ mark :: after = front ++ mark :: back := by
      rw [← whole]
      simp only [List.append_assoc, List.cons_append, List.nil_append]
    obtain ⟨same, -, -⟩ := (List.append_cons_inj_of_notMem plainFront plainBack).mp split.symm
    exact ⟨before, same.symm⟩
  · rintro ⟨before, rfl⟩
    exact ⟨before, back, by simp only [List.append_assoc, List.cons_append, List.nil_append]⟩

/-- What starts nowhere in the front of a text occurs in the rest or not at all. -/
theorem infix_behind {needle front back : Bytes}
    (apart : ∀ piece, piece <:+ front → piece ≠ [] → ¬ needle <+: piece ++ back)
    (inside : needle <:+: front ++ back) : needle <:+: back := by
  induction front with
  | nil => exact inside
  | cons first rest ih =>
    cases List.infix_cons_iff.mp inside with
    | inl starts => exact absurd starts (apart _ List.suffix_rfl (List.cons_ne_nil first rest))
    | inr later =>
      exact ih (fun piece ends => apart piece (ends.trans (List.suffix_cons first rest))) later

/-- A text without zero bytes in front of one is the string. -/
theorem cString_terminated {text : Bytes} (free : ∀ byte ∈ text, byte ≠ 0) (rest : Bytes) :
    cString (text ++ 0 :: rest) = text := by
  have all : ∀ byte ∈ text, (byte != 0) = true := by
    intro byte inside
    simpa using free byte inside
  rw [cString, List.takeWhile_append_of_pos all]
  simp

/-- The string of an array with a NUL behind a line. -/
theorem cString_line (line tail : Bytes) : cString (line ++ 0 :: tail) = cString line := by
  unfold cString
  induction line with
  | nil => rfl
  | cons byte line ih =>
    rw [List.cons_append, List.takeWhile_cons, List.takeWhile_cons, ih]

/-- The string of an array in which a text was stored with a NUL behind it. -/
theorem cString_overwrite (array text : Bytes) :
    cString (overwrite array (text ++ [0])) = cString text := by
  rw [overwrite, List.append_assoc]
  exact cString_line text _

/-- A text without zero bytes that was stored with a NUL behind it is the string. -/
theorem cString_stored (array : Bytes) {text : Bytes} (free : ∀ byte ∈ text, byte ≠ 0) :
    cString (overwrite array (text ++ [0])) = text := by
  rw [overwrite, List.append_assoc]
  exact cString_terminated free _

/-- A string holds no zero byte. -/
theorem cString_free (buffer : Bytes) : ∀ byte ∈ cString buffer, byte ≠ 0 := by
  intro byte inside
  simpa using List.mem_takeWhile_imp inside

/-- What was printed into a buffer is its string. -/
theorem cString_printInto (buffer : Bytes) {text : Bytes} (free : ∀ byte ∈ text, byte ≠ 0) :
    cString (printInto buffer text) = text :=
  cString_terminated free _

/-- The string of a buffer that was continued. -/
theorem cString_strcat (buffer : Bytes) {text : Bytes} (free : ∀ byte ∈ text, byte ≠ 0) :
    cString (strcat buffer text) = cString buffer ++ text := by
  apply cString_terminated
  intro byte inside
  cases List.mem_append.mp inside with
  | inl before => exact cString_free buffer byte before
  | inr new => exact free byte new

/-- Bytes that reach behind the end of a text hold the text as their string. -/
theorem cString_of_longer {piece rest text more : Bytes} (free : ∀ byte ∈ text, byte ≠ 0)
    (split : piece ++ rest = text ++ 0 :: more) (longer : text.length < piece.length)
    (garbage : Bytes) : cString (piece ++ garbage) = text := by
  have starts : (text ++ [0]) <+: piece ++ rest := by
    rw [split]
    exact ⟨more, by simp⟩
  have enough : (text ++ [0]).length ≤ piece.length := by simpa using longer
  have front := List.prefix_of_prefix_length_le starts (List.prefix_append piece rest) enough
  obtain ⟨behind, rfl⟩ := front
  rw [List.append_assoc, List.append_assoc]
  exact cString_terminated free (behind ++ garbage)

/-- Bytes in front of a text that ends are a part of the text, if nothing else follows them. -/
theorem cString_take {piece rest text more : Bytes} (free : ∀ byte ∈ text, byte ≠ 0)
    (split : piece ++ rest = text ++ 0 :: more) (garbage : Bytes) :
    cString (piece ++ 0 :: garbage) = text.take piece.length := by
  by_cases inside : piece.length ≤ text.length
  · have front : piece = text.take piece.length := by
      have same := congrArg (List.take piece.length) split
      rwa [List.take_left, List.take_append_of_le_length inside] at same
    have plain : ∀ byte ∈ piece, byte ≠ 0 := by
      intro byte cut
      rw [front] at cut
      exact free byte (List.mem_of_mem_take cut)
    rw [cString_terminated plain, ← front]
  · rw [cString_of_longer free split (by omega), List.take_of_length_le (by omega)]

end TinyTools.Lib
