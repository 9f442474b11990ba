import TinyTools.Shell.Line

/-!
# The rebuilt line

On a line without redirections `newBuffer` holds the line with every run of blanks squeezed to one
space. The squeezing does not regard backslashes, so a run that an escaped blank begins is squeezed
together with it: the word that it belongs to is then joined with the next one, or keeps a space
where it had another blank. The words of the squeezed line never have more bytes, nor are there
more of them, which is why no second difference hides a first.
-/

namespace TinyTools.Shell

open TinyTools.Lib

/-- The rest of a line as it is rebuilt, in a word or not. -/
def squeezed : Bool → Bytes → Bytes
  | _, [] => [32]
  | opened, byte :: rest =>
    if isSpace byte then (if opened then [32] else []) ++ squeezed false rest
    else byte :: squeezed true rest

/-- What was read last, as far as the escaped blanks go. -/
inductive Place
  /-- Neither of the others. -/
  | ordinary
  /-- An unescaped backslash. -/
  | backslash
  /-- An escaped space. -/
  | space
  deriving DecidableEq

/-- Every escaped blank of the rest of a line is a space, and unless the rest is blank no further
blank follows it. -/
def KeepsBlanks : Place → Bytes → Prop
  | _, [] => True
  | place, byte :: rest =>
    if place = .backslash then
      if byte = 32 then KeepsBlanks .space rest
      else isSpace byte = false ∧ KeepsBlanks .ordinary rest
    else if byte = 92 then KeepsBlanks .backslash rest
    else if isSpace byte then
      (place = .space → ∀ other ∈ rest, isSpace other) ∧ KeepsBlanks .ordinary rest
    else KeepsBlanks .ordinary rest

/-- The words of the rebuilt line are those of the line with a space behind it. -/
def SameWords (line : Bytes) : Prop :=
  (newBuffer (splitLine (cString line))).bind parseLine = parseLine (cString line ++ [32])

/-! ## Squeezing -/

section

variable {byte : UInt8} {rest : Bytes}

/-- A blank of the squeezed line. -/
theorem squeezed_blank (blank : isSpace byte) (opened : Bool) :
    squeezed opened (byte :: rest) = (if opened then [32] else []) ++ squeezed false rest := by
  rw [squeezed, if_pos blank]

/-- Another byte of the squeezed line. -/
theorem squeezed_byte (solid : isSpace byte = false) (opened : Bool) :
    squeezed opened (byte :: rest) = byte :: squeezed true rest := by
  rw [squeezed, if_neg (by rw [solid]; exact Bool.false_ne_true)]

/-- A backslash is no blank. -/
theorem backslash_solid : isSpace 92 = false := by decide

end

/-- A rest of blanks is squeezed to one space. -/
theorem squeezed_blanks {text : Bytes} (blank : ∀ byte ∈ text, isSpace byte) :
    squeezed false text = [32] := by
  induction text with
  | nil => rfl
  | cons byte rest ih =>
    rw [squeezed_blank (blank byte List.mem_cons_self), ih fun other inside =>
      blank other (.tail _ inside)]
    rfl

/-- Squeezing adds at most the space behind the line. -/
theorem squeezed_length (opened : Bool) (text : Bytes) :
    (squeezed opened text).length ≤ text.length + 1 := by
  induction text generalizing opened with
  | nil => exact le_rfl
  | cons byte rest ih =>
    unfold squeezed
    split_ifs with blank
    · have tail := ih false
      simp only [List.singleton_append, List.length_cons]
      omega
    · have tail := ih false
      simp only [List.nil_append, List.length_cons]
      omega
    · have tail := ih true
      simp only [List.length_cons]
      omega

/-- The words of a line, each with a space behind it, are the squeezed line. -/
theorem flatMap_splitFrom (word : Option Word) (text : Bytes) :
    (splitFrom word text).flatMap (· ++ [32]) = word.getD [] ++ squeezed word.isSome text := by
  induction text generalizing word with
  | nil => cases word <;> simp [splitFrom, squeezed]
  | cons byte rest ih =>
    cases blank : isSpace byte with
    | true => cases word <;> simp [splitFrom, squeezed, blank, ih]
    | false => cases word <;> simp [splitFrom, squeezed, blank, ih]

/-- A line without operators is squeezed. -/
theorem rebuilt_splitLine {text : Bytes} (some_ : text ≠ [])
    (plain : ∀ word ∈ splitLine text, operator word = none) :
    rebuilt (splitLine text) = squeezed false text := by
  rw [rebuilt_all plain, splitLine, if_neg some_, flatMap_splitFrom]
  rfl

/-! ## Lines that keep their words -/

/-- In every place, the words of the squeezed rest are those of the rest with a space behind it. -/
structure Kept (text : Bytes) : Prop where
  /-- In a word or between words. -/
  ordinary (word : Option Word) (keeps : KeepsBlanks .ordinary text) :
    parseFrom false word (squeezed word.isSome text) = parseFrom false word (text ++ [32])
  /-- Behind a backslash. -/
  backslash (word : Option Word) (keeps : KeepsBlanks .backslash text) :
    parseFrom true word (squeezed true text) = parseFrom true word (text ++ [32])
  /-- Behind an escaped space. -/
  space (word : Word) (keeps : KeepsBlanks .space text) :
    parseFrom false (some word) (squeezed false text) = parseFrom false (some word) (text ++ [32])

/-- A rest of blanks ends the open word, and holds no other. -/
theorem parseFrom_blanks {text : Bytes} (blank : ∀ byte ∈ text, isSpace byte)
    (word : Option Word) : parseFrom false word text = some word.toList := by
  induction text generalizing word with
  | nil => rfl
  | cons byte rest ih =>
    rw [parseFrom_blank (blank byte List.mem_cons_self),
      ih (fun other inside => blank other (.tail _ inside)) none]
    exact congrArg some (List.append_nil _)

/-- A backslash is squeezed to itself. -/
theorem Kept.escape {rest : Bytes} (kept : Kept rest) (word : Option Word) (opened : Bool)
    (keeps : KeepsBlanks .backslash rest) :
    parseFrom false word (squeezed opened (92 :: rest)) =
      parseFrom false word (92 :: rest ++ [32]) := by
  rw [squeezed_byte backslash_solid, List.cons_append, parseFrom_backslash, parseFrom_backslash]
  exact kept.backslash word keeps

/-- Another byte that is no blank is squeezed to itself. -/
theorem Kept.byte {rest : Bytes} (kept : Kept rest) (word : Option Word) (opened : Bool)
    {byte : UInt8} (other : byte ≠ 92) (solid : isSpace byte = false)
    (keeps : KeepsBlanks .ordinary rest) :
    parseFrom false word (squeezed opened (byte :: rest)) =
      parseFrom false word (byte :: rest ++ [32]) := by
  rw [squeezed_byte solid, List.cons_append, parseFrom_byte other solid, parseFrom_byte other solid]
  exact kept.ordinary _ keeps

/-- In a word or between words, a blank ends the word on both lines. -/
theorem Kept.ordinary_cons {byte : UInt8} {rest : Bytes} (kept : Kept rest) (word : Option Word)
    (keeps : KeepsBlanks .ordinary (byte :: rest)) :
    parseFrom false word (squeezed word.isSome (byte :: rest)) =
      parseFrom false word (byte :: rest ++ [32]) := by
  rw [KeepsBlanks, if_neg (by decide)] at keeps
  by_cases escape : byte = 92
  · rw [if_pos escape] at keeps
    rw [escape]
    exact kept.escape word _ keeps
  · rw [if_neg escape] at keeps
    cases blank : isSpace byte with
    | true =>
      rw [if_pos blank] at keeps
      rw [squeezed_blank blank, List.cons_append, parseFrom_blank blank]
      have tail := kept.ordinary none keeps.2
      cases word with
      | none => exact tail.trans (id_map _).symm
      | some word => exact (parseFrom_blank rfl).trans (congrArg _ tail)
    | false =>
      rw [if_neg (by rw [blank]; exact Bool.false_ne_true)] at keeps
      exact kept.byte word _ escape blank keeps

/-- Behind a backslash, a space goes into the word on both lines. -/
theorem Kept.backslash_cons {byte : UInt8} {rest : Bytes} (kept : Kept rest) (word : Option Word)
    (keeps : KeepsBlanks .backslash (byte :: rest)) :
    parseFrom true word (squeezed true (byte :: rest)) =
      parseFrom true word (byte :: rest ++ [32]) := by
  rw [KeepsBlanks, if_pos rfl] at keeps
  by_cases isBlank : byte = 32
  · rw [if_pos isBlank] at keeps
    rw [isBlank, squeezed_blank (by decide)]
    exact kept.space _ keeps
  · rw [if_neg isBlank] at keeps
    rw [squeezed_byte keeps.1]
    exact kept.ordinary _ keeps.2

/-- Behind an escaped space, a blank ends the word on both lines when only blanks follow. -/
theorem Kept.space_cons {byte : UInt8} {rest : Bytes} (kept : Kept rest) (word : Word)
    (keeps : KeepsBlanks .space (byte :: rest)) :
    parseFrom false (some word) (squeezed false (byte :: rest)) =
      parseFrom false (some word) (byte :: rest ++ [32]) := by
  rw [KeepsBlanks, if_neg (by decide)] at keeps
  by_cases escape : byte = 92
  · rw [if_pos escape] at keeps
    rw [escape]
    exact kept.escape _ _ keeps
  · rw [if_neg escape] at keeps
    cases blank : isSpace byte with
    | true =>
      rw [if_pos blank] at keeps
      have blanks : ∀ other ∈ byte :: rest, isSpace other :=
        List.forall_mem_cons.mpr ⟨blank, keeps.1 rfl⟩
      have longer : ∀ other ∈ byte :: rest ++ [32], isSpace other := by
        intro other inside
        cases List.mem_append.mp inside with
        | inl before => exact blanks other before
        | inr last =>
          rw [List.mem_singleton.mp last]
          rfl
      rw [squeezed_blanks blanks, parseFrom_blanks longer]
      rfl
    | false =>
      rw [if_neg (by rw [blank]; exact Bool.false_ne_true)] at keeps
      exact kept.byte _ _ escape blank keeps

/-- A line that keeps its escaped blanks keeps its words. -/
theorem kept (text : Bytes) : Kept text := by
  induction text with
  | nil => exact ⟨fun _ _ => rfl, fun _ _ => rfl, fun _ _ => rfl⟩
  | cons byte rest ih => exact ⟨ih.ordinary_cons, ih.backslash_cons, ih.space_cons⟩

/-! ## Lines that do not -/

/-- The bytes and the words of the rest of a string, behind a backslash or not, in a word or not. -/
def load : Bool → Bool → Bytes → ℕ
  | _, _, [] => 0
  | false, opened, byte :: rest =>
    if byte = 92 then load true opened rest
    else if isSpace byte then load false false rest
    else (if opened then 1 else 2) + load false true rest
  | true, opened, byte :: rest =>
    (if opened then 0 else 1) + (if byte = 32 then 1 else 2) + load false true rest

/-- The bytes and the number of some words. -/
def wordsLoad (words : List Word) : ℕ := (words.map fun word => word.length + 1).sum

/-- The words that are read have the load of the string. -/
theorem wordsLoad_parseFrom {escaped : Bool} {word : Option Word} {text : Bytes}
    {words : List Word} (read : parseFrom escaped word text = some words) :
    wordsLoad words = wordsLoad word.toList + load escaped word.isSome text := by
  induction text generalizing escaped word words with
  | nil =>
    cases escaped with
    | true => cases read
    | false =>
      rw [← Option.some.inj read]
      cases word <;> rfl
  | cons byte rest ih =>
    have grown (more : Word) : wordsLoad [word.getD [] ++ more] =
        wordsLoad word.toList + ((if word.isSome then 0 else 1) + more.length) := by
      cases word <;> simp [wordsLoad] <;> omega
    cases escaped with
    | true =>
      have tail := ih read
      rw [show wordsLoad (Option.toList (some _)) = _ from grown _] at tail
      rw [tail, load]
      split_ifs <;> simp <;> omega
    | false =>
      rw [parseFrom] at read
      rw [load]
      split_ifs at read ⊢ with escape blank opened
      · exact ih read
      · obtain ⟨words', read', rfl⟩ := Option.map_eq_some_iff.mp read
        have tail := ih read'
        simp [wordsLoad] at tail ⊢
        omega
      · have tail := ih read
        rw [show wordsLoad (Option.toList (some _)) = _ from grown _, if_pos opened] at tail
        simp at tail ⊢
        omega
      · have tail := ih read
        rw [show wordsLoad (Option.toList (some _)) = _ from grown _, if_neg opened] at tail
        simp at tail ⊢
        omega

section

variable {byte : UInt8} {rest : Bytes} (opened : Bool)

/-- A blank ends a word. -/
theorem load_blank (blank : isSpace byte) :
    load false opened (byte :: rest) = load false false rest := by
  rw [load, if_neg (not_backslash blank), if_pos blank]

/-- An ordinary byte counts, and so does the word that it begins. -/
theorem load_byte (other : byte ≠ 92) (solid : isSpace byte = false) :
    load false opened (byte :: rest) = (if opened then 1 else 2) + load false true rest := by
  rw [load, if_neg other, if_neg (by rw [solid]; exact Bool.false_ne_true)]

/-- A backslash waits for the byte behind it. -/
theorem load_backslash : load false opened (92 :: rest) = load true opened rest := by
  rw [load, if_pos rfl]

/-- A word that begins with a backslash counts once more. -/
theorem load_begin (text : Bytes) (last : UInt8) :
    load true false (text ++ [last]) = load true true (text ++ [last]) + 1 := by
  cases text <;> simp [load] <;> omega

end

/-- A number is at most another, and less when something does not hold. -/
structure Below (holds : Prop) (less more : ℕ) : Prop where
  /-- At most. -/
  le : less ≤ more
  /-- Less. -/
  lt : ¬ holds → less < more

/-- A smaller number is below. -/
theorem Below.of_lt {holds : Prop} {less more : ℕ} (smaller : less < more) :
    Below holds less more :=
  ⟨smaller.le, fun _ => smaller⟩

/-- The same number is below where the condition holds. -/
theorem Below.of_eq {holds : Prop} (true_ : holds) (number : ℕ) : Below holds number number :=
  ⟨le_rfl, fun not_ => absurd true_ not_⟩

/-- A condition can be replaced by one that it implies. -/
theorem Below.imp {holds holds' : Prop} {less more : ℕ} (below : Below holds less more)
    (follows : holds → holds') : Below holds' less more :=
  ⟨below.le, fun not_ => below.lt fun true_ => not_ (follows true_)⟩

/-- Both numbers can be raised. -/
theorem Below.add {holds : Prop} {less more : ℕ} (below : Below holds less more) (number : ℕ) :
    Below holds (number + less) (number + more) :=
  ⟨Nat.add_le_add_left below.le number, fun not_ => Nat.add_lt_add_left (below.lt not_) number⟩

/-- In every place, the load of the squeezed rest is at most that of the rest, and less unless the
rest keeps its escaped blanks. -/
structure Bounded (text : Bytes) : Prop where
  /-- In a word or between words. -/
  ordinary (opened : Bool) : Below (KeepsBlanks .ordinary text)
    (load false opened (squeezed opened text)) (load false opened (text ++ [32]))
  /-- Behind a backslash. -/
  backslash (opened : Bool) : Below (KeepsBlanks .backslash text)
    (load true opened (squeezed true text)) (load true opened (text ++ [32]))
  /-- Behind an escaped space. -/
  space : Below (KeepsBlanks .space text)
    (load false true (squeezed false text)) (load false true (text ++ [32]))
  /-- Between words, where the squeezed rest goes on with a word. -/
  severed : Below (∀ byte ∈ text, isSpace byte)
    (load false true (squeezed false text)) (load false false (text ++ [32]))

/-- A backslash weighs the same. -/
theorem Bounded.escape {rest : Bytes} (bounded : Bounded rest) (opened was : Bool) :
    Below (KeepsBlanks .backslash rest) (load false opened (squeezed was (92 :: rest)))
      (load false opened (92 :: rest ++ [32])) := by
  rw [squeezed_byte backslash_solid, List.cons_append, load_backslash, load_backslash]
  exact bounded.backslash opened

/-- Another byte that is no blank weighs the same. -/
theorem Bounded.byte {rest : Bytes} (bounded : Bounded rest) (opened was : Bool) {byte : UInt8}
    (other : byte ≠ 92) (solid : isSpace byte = false) :
    Below (KeepsBlanks .ordinary rest) (load false opened (squeezed was (byte :: rest)))
      (load false opened (byte :: rest ++ [32])) := by
  rw [squeezed_byte solid, List.cons_append, load_byte opened other solid,
    load_byte opened other solid]
  exact (bounded.ordinary true).add _

/-- A rest of blanks keeps them. -/
theorem keepsBlanks_blanks {text : Bytes} (blank : ∀ byte ∈ text, isSpace byte) :
    KeepsBlanks .ordinary text := by
  induction text with
  | nil => trivial
  | cons byte rest ih =>
    have first := blank byte List.mem_cons_self
    rw [KeepsBlanks, if_neg (by decide), if_neg (not_backslash first), if_pos first]
    exact ⟨nofun, ih fun other inside => blank other (.tail _ inside)⟩

/-- In a word or between words, a blank ends the word on both lines. -/
theorem Bounded.ordinary_cons {byte : UInt8} {rest : Bytes} (bounded : Bounded rest)
    (opened : Bool) : Below (KeepsBlanks .ordinary (byte :: rest))
      (load false opened (squeezed opened (byte :: rest)))
      (load false opened (byte :: rest ++ [32])) := by
  rw [KeepsBlanks, if_neg (by decide)]
  by_cases escape : byte = 92
  · rw [if_pos escape, escape]
    exact bounded.escape opened opened
  · rw [if_neg escape]
    cases blank : isSpace byte with
    | true =>
      have squeezed_ : load false opened (squeezed opened (byte :: rest)) =
          load false false (squeezed false rest) := by
        rw [squeezed_blank blank]
        cases opened with
        | true => exact load_blank true rfl
        | false => rfl
      rw [squeezed_, List.cons_append, load_blank opened blank, if_pos rfl]
      exact (bounded.ordinary false).imp fun keeps => ⟨nofun, keeps⟩
    | false =>
      rw [if_neg Bool.false_ne_true]
      exact bounded.byte opened opened escape blank

/-- Behind a backslash, another blank than a space is squeezed to one, which takes no backslash
along. -/
theorem Bounded.backslash_cons {byte : UInt8} {rest : Bytes} (bounded : Bounded rest)
    (opened : Bool) : Below (KeepsBlanks .backslash (byte :: rest))
      (load true opened (squeezed true (byte :: rest)))
      (load true opened (byte :: rest ++ [32])) := by
  rw [KeepsBlanks, if_pos rfl]
  by_cases isBlank : byte = 32
  · rw [if_pos isBlank, isBlank, squeezed_blank (by decide)]
    exact bounded.space.add _
  · rw [if_neg isBlank]
    cases blank : isSpace byte with
    | true =>
      have tail := bounded.space.le
      apply Below.of_lt
      rw [squeezed_blank blank, List.cons_append, if_pos rfl]
      simp only [List.singleton_append, load, if_neg isBlank, if_true]
      omega
    | false =>
      rw [squeezed_byte blank]
      exact ((bounded.ordinary true).imp fun keeps => ⟨rfl, keeps⟩).add _

/-- Behind an escaped space, a blank ends the word on the line alone. -/
theorem Bounded.space_cons {byte : UInt8} {rest : Bytes} (bounded : Bounded rest) :
    Below (KeepsBlanks .space (byte :: rest)) (load false true (squeezed false (byte :: rest)))
      (load false true (byte :: rest ++ [32])) := by
  rw [KeepsBlanks, if_neg (by decide)]
  by_cases escape : byte = 92
  · rw [if_pos escape, escape]
    exact bounded.escape true false
  · rw [if_neg escape]
    cases blank : isSpace byte with
    | true =>
      rw [squeezed_blank blank, List.cons_append, load_blank true blank, if_pos rfl]
      exact bounded.severed.imp fun blanks => ⟨fun _ => blanks, keepsBlanks_blanks blanks⟩
    | false =>
      rw [if_neg Bool.false_ne_true]
      exact bounded.byte true false escape blank

/-- Between words, where the squeezed rest goes on with a word, the line alone begins one. -/
theorem Bounded.severed_cons {byte : UInt8} {rest : Bytes} (bounded : Bounded rest) :
    Below (∀ other ∈ byte :: rest, isSpace other)
      (load false true (squeezed false (byte :: rest)))
      (load false false (byte :: rest ++ [32])) := by
  cases blank : isSpace byte with
  | true =>
    rw [squeezed_blank blank, List.cons_append, load_blank false blank]
    exact bounded.severed.imp fun blanks => List.forall_mem_cons.mpr ⟨blank, blanks⟩
  | false =>
    apply Below.of_lt
    rw [squeezed_byte blank, List.cons_append]
    by_cases escape : byte = 92
    · have tail := (bounded.backslash true).le
      rw [escape, load_backslash, load_backslash, load_begin]
      omega
    · have tail := (bounded.ordinary true).le
      rw [load_byte true escape blank, load_byte false escape blank, if_pos rfl,
        if_neg Bool.false_ne_true]
      omega

/-- The squeezed line is the lighter one. -/
theorem bounded (text : Bytes) : Bounded text := by
  induction text with
  | nil =>
    exact ⟨fun _ => .of_eq trivial _, fun _ => .of_eq trivial _, .of_eq trivial _,
      .of_eq nofun _⟩
  | cons byte rest ih =>
    exact ⟨ih.ordinary_cons, ih.backslash_cons, ih.space_cons, ih.severed_cons⟩

/-- Reading a line with a space behind it comes to an end. -/
theorem parseFrom_closed (escaped : Bool) (word : Option Word) (text : Bytes) :
    ∃ words, parseFrom escaped word (text ++ [32]) = some words := by
  induction text generalizing escaped word with
  | nil => cases escaped <;> exact ⟨_, rfl⟩
  | cons byte rest ih =>
    cases escaped with
    | true => exact ih false _
    | false =>
      rw [List.cons_append, parseFrom]
      split_ifs
      · exact ih true word
      · obtain ⟨words, read⟩ := ih false none
        exact ⟨word.toList ++ words, by rw [read]; rfl⟩
      · exact ih false _

/-! ## The words of the rebuilt line -/

/-- The words of the squeezed line are those of the line exactly when it keeps its blanks. -/
theorem parseFrom_squeezed_iff (text : Bytes) :
    parseFrom false none (squeezed false text) = parseFrom false none (text ++ [32]) ↔
      KeepsBlanks .ordinary text := by
  constructor
  · intro same
    by_contra fails
    obtain ⟨words, read⟩ := parseFrom_closed false none text
    have less := ((bounded text).ordinary false).lt fails
    have squeezed_ := wordsLoad_parseFrom (same.trans read)
    rw [wordsLoad_parseFrom read] at squeezed_
    exact less.ne (Nat.add_left_cancel squeezed_).symm
  · exact (kept text).ordinary none

/-- The words of the rebuilt line are those of the line with a space behind it exactly when every
escaped blank is a space, behind which no further blank comes before the next word. -/
theorem sameWords_iff (line : Bytes) (short : (cString line).length ≤ 998)
    (plain : ∀ word ∈ splitLine (cString line), operator word = none) :
    SameWords line ↔ KeepsBlanks .ordinary (cString line) := by
  unfold SameWords
  by_cases empty : cString line = []
  · rw [empty]
    exact ⟨fun _ => trivial, fun _ => rfl⟩
  · have rebuilt_ := rebuilt_splitLine empty plain
    have fits : (squeezed false (cString line)).length < MAXLINE := by
      have bound := squeezed_length false (cString line)
      unfold MAXLINE
      omega
    rw [newBuffer, rebuilt_, if_pos fits, ← parseFrom_squeezed_iff]
    constructor
    · intro same
      exact Option.map_injective CommandLine.ofWords_injective same
    · intro same
      exact congrArg (CommandLine.ofWords <$> ·) same

/-- The words of a line with an escaped space in a word are those of the rebuilt line. -/
theorem sameWords_iff_escaped :
    SameWords (bytes "echo a\\ b") ↔ KeepsBlanks .ordinary (cString (bytes "echo a\\ b")) :=
  sameWords_iff (bytes "echo a\\ b") (by decide) (by decide)

/-- An escaped space in front of another joins two words. -/
theorem not_sameWords_joined : ¬ SameWords (bytes "echo a\\  b") := by
  unfold SameWords
  decide

end TinyTools.Shell
