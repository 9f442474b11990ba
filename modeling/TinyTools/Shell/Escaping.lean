import TinyTools.Shell.Buffers

/-!
# Reading what was escaped

A word is written with a backslash in front of each of its spaces. `parseLine` reads written words
with blanks between them as the words that were written.
-/

namespace TinyTools.Shell

open TinyTools.Lib

/-- A word with every space replaced by a backslash and a space. -/
def escape (word : Word) : Bytes := word.flatMap fun byte => if byte = 32 then [92, 32] else [byte]

/-- A word that fits in the array for a word, without NUL and backslash, and with no other blank
than the space. -/
structure Escapable (word : Word) : Prop where
  /-- It is not empty. -/
  some_ : word ≠ []
  /-- It leaves room for the NUL. -/
  short : word.length < MAXLINE
  /-- Its bytes. -/
  bytes : ∀ byte ∈ word, byte ≠ 0 ∧ byte ≠ 92 ∧ (isSpace byte → byte = 32)

/-- Written words, each with the blanks behind it. -/
def writeOut (entries : List (Word × Bytes)) : Bytes :=
  entries.flatMap fun entry => escape entry.1 ++ entry.2

/-- There are blanks in front of words and behind each of them, between two of them at least
one. -/
structure Separated (leading : Bytes) (entries : List (Word × Bytes)) : Prop where
  /-- In front. -/
  leading : ∀ byte ∈ leading, isSpace byte
  /-- Behind. -/
  behind : ∀ entry ∈ entries, ∀ byte ∈ entry.2, isSpace byte
  /-- Between. -/
  between : ∀ entry ∈ entries.dropLast, entry.2 ≠ []

instance (word : Word) : Decidable (Escapable word) :=
  decidable_of_iff (word ≠ [] ∧ word.length < MAXLINE ∧
      ∀ byte ∈ word, byte ≠ 0 ∧ byte ≠ 92 ∧ (isSpace byte → byte = 32))
    ⟨fun ⟨some_, short, bytes⟩ => ⟨some_, short, bytes⟩,
      fun ⟨some_, short, bytes⟩ => ⟨some_, short, bytes⟩⟩

instance (leading : Bytes) (entries : List (Word × Bytes)) :
    Decidable (Separated leading entries) :=
  decidable_of_iff ((∀ byte ∈ leading, isSpace byte) ∧
      (∀ entry ∈ entries, ∀ byte ∈ entry.2, isSpace byte) ∧
        ∀ entry ∈ entries.dropLast, entry.2 ≠ [])
    ⟨fun ⟨leading, behind, between⟩ => ⟨leading, behind, between⟩,
      fun ⟨leading, behind, between⟩ => ⟨leading, behind, between⟩⟩

/-- A written byte goes into the word. -/
theorem parseFrom_escape_cons {byte : UInt8} (plain : byte ≠ 92)
    (solid : isSpace byte → byte = 32) (word : Option Word) (rest : Bytes) :
    parseFrom false word ((if byte = 32 then [92, 32] else [byte]) ++ rest) =
      parseFrom false (some (word.getD [] ++ [byte])) rest := by
  by_cases space : byte = 32
  · rw [if_pos space, space]
    exact parseFrom_backslash
  · have stays : isSpace byte = false := Bool.eq_false_iff.mpr fun blank => space (solid blank)
    rw [if_neg space]
    exact parseFrom_byte plain stays

/-- A written word is read as itself. -/
theorem parseFrom_escape {text : Word}
    (bytes : ∀ byte ∈ text, byte ≠ 0 ∧ byte ≠ 92 ∧ (isSpace byte → byte = 32)) (some_ : text ≠ [])
    (word : Option Word) (rest : Bytes) :
    parseFrom false word (escape text ++ rest) =
      parseFrom false (some (word.getD [] ++ text)) rest := by
  induction text generalizing word with
  | nil => exact absurd rfl some_
  | cons byte text ih =>
    obtain ⟨-, plain, solid⟩ := bytes byte (.head _)
    have first := parseFrom_escape_cons plain solid word (escape text ++ rest)
    rw [← List.append_assoc] at first
    refine Eq.trans first ?_
    by_cases last : text = []
    · rw [last]
      rfl
    · rw [ih (fun other inside => bytes other (.tail _ inside)) last]
      simp

/-- The bytes of a written word are those of the word and backslashes. -/
theorem escape_noNul {word : Word} (noNul : ∀ byte ∈ word, byte ≠ 0) :
    ∀ byte ∈ escape word, byte ≠ 0 := by
  intro byte inside
  obtain ⟨own, among, written⟩ := List.mem_flatMap.mp inside
  have notNul := noNul own among
  split_ifs at written with space
  · intro same
    rw [same] at written
    exact absurd written (by decide)
  · rwa [List.mem_singleton.mp written]

/-- The words that are read are those that were written. -/
theorem parseFrom_writeOut {entries : List (Word × Bytes)}
    (words : ∀ entry ∈ entries, Escapable entry.1)
    (behind : ∀ entry ∈ entries, ∀ byte ∈ entry.2, isSpace byte)
    (between : ∀ entry ∈ entries.dropLast, entry.2 ≠ []) :
    parseFrom false none (writeOut entries) = some (entries.map Prod.fst) := by
  induction entries with
  | nil => rfl
  | cons entry entries ih =>
    have own := words entry (.head _)
    have word := parseFrom_escape own.bytes own.some_ none (entry.2 ++ writeOut entries)
    rw [← List.append_assoc] at word
    refine Eq.trans word ?_
    cases entries with
    | nil =>
      have ends := parseFrom_blanks (fun byte => behind entry (.head _) byte) (some entry.1)
      rw [writeOut, List.flatMap_nil, List.append_nil]
      exact ends
    | cons next entries =>
      have later := ih (fun other inside => words other (.tail _ inside))
        (fun other inside => behind other (.tail _ inside))
        (fun other inside => between other (.tail _ inside))
      obtain ⟨byte, gap, shape⟩ := List.exists_cons_of_ne_nil (between entry (.head _))
      have blank := behind entry (.head _)
      rw [shape] at blank ⊢
      rw [List.cons_append, parseFrom_blank (blank byte (.head _)),
        parseFrom_leading (fun other inside => blank other (.tail _ inside)), later]
      rfl

/-- `parseLine` answers exactly the words that were written, whatever stands behind the NUL and
whatever the arrays held. -/
theorem parseLine_writeOut (garbage : Option Word) {array : Bytes}
    (size : array.length = MAXLINE) {leading : Bytes} {entries : List (Word × Bytes)}
    (words : ∀ entry ∈ entries, Escapable entry.1) (separated : Separated leading entries)
    (beyond : Bytes) :
    parseLineIn garbage array (leading ++ writeOut entries ++ 0 :: beyond) =
      some (CommandLine.ofWords (entries.map Prod.fst)) := by
  apply parseLineIn_eq
  · intro byte inside
    cases List.mem_append.mp inside with
    | inl front => exact blank_ne_nul (separated.leading byte front)
    | inr written =>
      obtain ⟨entry, among, within⟩ := List.mem_flatMap.mp written
      cases List.mem_append.mp within with
      | inl own =>
        exact escape_noNul (fun other one => ((words entry among).bytes other one).1) byte own
      | inr gap => exact blank_ne_nul (separated.behind entry among byte gap)
  · rw [parseFrom_leading separated.leading]
    exact parseFrom_writeOut words separated.behind separated.between
  · intro word inside
    obtain ⟨entry, among, rfl⟩ := List.mem_map.mp inside
    rw [size]
    exact (words entry among).short

/-- Two words, the first one with a space. -/
theorem parseLine_writeOut_two :
    parseLineIn none (List.replicate MAXLINE 7)
        (bytes " " ++ writeOut [(bytes "a b", bytes "\t "), (bytes "c", [])] ++ 0 :: [92, 0]) =
      some (CommandLine.ofWords [bytes "a b", bytes "c"]) :=
  parseLine_writeOut none List.length_replicate (by decide +kernel) (by decide +kernel) [92, 0]

end TinyTools.Shell
