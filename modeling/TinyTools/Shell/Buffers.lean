import TinyTools.Lib.Loop
import TinyTools.Shell.Normalise
import TinyTools.Shell.Writing

/-!
# The buffers of the shell

The loops that read a line work on arrays: of `MAXLINE` bytes for the line, for a word and for the
rebuilt line. A pointer into one is the memory from there on, so a read past the end finds nothing,
and a write past the end fails. The loops leave what the lists of the model say, behind it whatever
was there before.
-/

namespace TinyTools.Shell

open TinyTools.Lib

/-! ## The words of the line -/

/-- The inner loop of `main`: the bytes of a word, up to a blank or the NUL. -/
def collectWord : Bytes → Bytes → ℕ → Option (Bytes × ℕ × Bytes)
  | [], _, _ => none
  | byte :: rest, word, k =>
    if byte = 0 ∨ isSpace byte then some (word, k, byte :: rest)
    else do
      let word ← store word k byte
      collectWord rest word (k + 1)

/-- The loop of `main` that fills `args`. Every word begins with an array of zeros. -/
def collectArgs : ℕ → Bytes → Option (List Word)
  | 0, _ => none
  | _, [] => none
  | fuel + 1, byte :: rest =>
    if byte = 0 then some []
    else do
      let (word, k, behind) ←
        collectWord ((byte :: rest).dropWhile isSpace) (List.replicate MAXLINE 0) 0
      let word ← store word k 0
      let args ← collectArgs fuel behind
      return cString word :: args

/-! ## The rebuilt line -/

/-- The bytes of a word are copied into `newBuffer`. -/
def copyWord : Word → Bytes → ℕ → Option (Bytes × ℕ)
  | [], buffer, pos => some (buffer, pos)
  | byte :: rest, buffer, pos => do
    let buffer ← store buffer pos byte
    copyWord rest buffer (pos + 1)

/-- The loop of `main` over `args`: an operator is passed over with the word behind it. -/
def copyArgs : List Word → Bytes → ℕ → Option (Bytes × ℕ)
  | [], buffer, pos => some (buffer, pos)
  | [word], buffer, pos =>
    if (operator word).isSome then some (buffer, pos)
    else do
      let (buffer, pos) ← copyWord word buffer pos
      let buffer ← store buffer pos 32
      return (buffer, pos + 1)
  | word :: next :: rest, buffer, pos =>
    if (operator word).isSome then copyArgs rest buffer pos
    else do
      let (buffer, pos) ← copyWord word buffer pos
      let buffer ← store buffer pos 32
      copyArgs (next :: rest) buffer (pos + 1)

/-- `newBuffer` with its final NUL, and the place of this. -/
def rebuild (args : List Word) (buffer : Bytes) : Option (Bytes × ℕ) := do
  let (buffer, pos) ← copyArgs args buffer 0
  let buffer ← store buffer pos 0
  return (buffer, pos)

/-! ## The parsed line -/

/-- The inner loop of `parseLine`. A backslash takes the byte behind it along, whatever it is. -/
def parseWord : Bytes → Bytes → ℕ → Option (Bytes × ℕ × Bytes)
  | [], _, _ => none
  | [byte], word, pos => if byte = 0 ∨ isSpace byte then some (word, pos, [byte]) else none
  | byte :: next :: rest, word, pos =>
    if byte = 0 ∨ isSpace byte then some (word, pos, byte :: next :: rest)
    else if byte = 92 then
      if next = 32 then do
        let word ← store word pos 32
        parseWord rest word (pos + 1)
      else do
        let word ← store word pos 92
        let word ← store word (pos + 1) next
        parseWord rest word (pos + 2)
    else do
      let word ← store word pos byte
      parseWord (next :: rest) word (pos + 1)

/-- `realloc` of `cmdargv`: an entry that is new holds anything. -/
def reallocArgv (garbage : Option Word) (cmdargv : List (Option Word)) (entries : ℕ) :
    List (Option Word) :=
  cmdargv.take entries ++ List.replicate (entries - cmdargv.length) garbage

/-- A copy of the word becomes the last entry, and the array grows by one. -/
def CommandLine.push (garbage : Option Word) (pargv : CommandLine) (word : Bytes) :
    Option CommandLine := do
  let cmdargv ← store pargv.cmdargv pargv.size (some (cString word))
  return ⟨pargv.size + 1, reallocArgv garbage cmdargv (pargv.size + 2)⟩

/-- The null pointer behind the words is counted. -/
def CommandLine.close (pargv : CommandLine) : Option CommandLine := do
  let cmdargv ← store pargv.cmdargv pargv.size none
  return ⟨pargv.size + 1, cmdargv⟩

/-- The outer loop of `parseLine`. The array for a word keeps what the last word left in it. -/
def parseWords (garbage : Option Word) : ℕ → Bytes → Bytes → CommandLine → Option CommandLine
  | 0, _, _, _ => none
  | _, [], _, _ => none
  | fuel + 1, byte :: rest, word, pargv =>
    if byte = 0 then pargv.close
    else do
      let (word, pos, behind) ← parseWord (byte :: rest) word 0
      let word ← store word pos 0
      let pargv ← pargv.push garbage word
      let word ← store word 0 0
      parseWords garbage fuel (behind.dropWhile isSpace) word pargv

/-- `parseLine` on the memory from its argument on. -/
def parseLineIn (garbage : Option Word) (word memory : Bytes) : Option CommandLine :=
  match memory.dropWhile isSpace with
  | [] => none
  | byte :: rest =>
    if byte = 0 then some ⟨0, [none]⟩
    else parseWords garbage (rest.length + 1) (byte :: rest) word ⟨0, [none]⟩

/-! ## What the first loop leaves -/

/-- The NUL is no blank. -/
theorem nul_solid : isSpace 0 = false := by decide

/-- The bytes in front of a blank or the NUL are collected. -/
theorem collectWord_eq {text : Bytes} (solid : ∀ byte ∈ text, isSpace byte = false)
    (noNul : ∀ byte ∈ text, byte ≠ 0) {stop : UInt8} (ends : stop = 0 ∨ isSpace stop)
    (behind array word : Bytes) (room : (word ++ text).length ≤ array.length) :
    collectWord (text ++ stop :: behind) (overwrite array word) word.length =
      some (overwrite array (word ++ text), (word ++ text).length, stop :: behind) := by
  induction text generalizing word with
  | nil => rw [List.nil_append, collectWord, if_pos ends, List.append_nil]
  | cons byte text ih =>
    have goesOn : ¬ (byte = 0 ∨ isSpace byte = true) := by
      rw [solid byte List.mem_cons_self]
      exact not_or.mpr ⟨noNul byte List.mem_cons_self, Bool.false_ne_true⟩
    have inside : word.length < array.length := by
      rw [List.length_append, List.length_cons] at room
      omega
    have again : word ++ byte :: text = word ++ [byte] ++ text := by
      rw [List.append_assoc, List.singleton_append]
    have tail := ih (fun other among => solid other (.tail _ among))
      (fun other among => noNul other (.tail _ among)) (word ++ [byte]) (by rwa [← again])
    rw [length_snoc] at tail
    rw [List.cons_append, collectWord, if_neg goesOn, store_next inside,
      Option.bind_eq_bind, Option.bind_some, tail, again]

/-- The word that a line begins with, behind blanks. -/
def firstPiece (text : Bytes) : Word := (text.dropWhile isSpace).takeWhile (!isSpace ·)

/-- The line behind its first word. -/
def behindPiece (text : Bytes) : Bytes := (text.dropWhile isSpace).dropWhile (!isSpace ·)

/-- A word has no blank. -/
theorem firstPiece_solid (text : Bytes) : ∀ byte ∈ firstPiece text, isSpace byte = false := by
  intro byte inside
  have notBlank := List.mem_takeWhile_imp inside
  simpa using notBlank

/-- What stands behind the first word is a blank or nothing. -/
theorem behindPiece_starts (text : Bytes) : ∀ byte ∈ (behindPiece text).head?, isSpace byte := by
  intro byte first
  have stop := List.head?_dropWhile_not (!isSpace ·) (text.dropWhile isSpace)
  unfold behindPiece at first
  rw [first] at stop
  simpa using stop

/-- There is less behind the first word. -/
theorem behindPiece_lt {text : Bytes} (some_ : text ≠ []) :
    (behindPiece text).length < text.length := by
  obtain ⟨byte, rest, rfl⟩ := List.exists_cons_of_ne_nil some_
  have shorter (p : UInt8 → Bool) (bytes : Bytes) : (bytes.dropWhile p).length ≤ bytes.length :=
    (List.dropWhile_suffix p).length_le
  unfold behindPiece
  cases blank : isSpace byte with
  | true =>
    rw [List.dropWhile_cons_of_pos blank, List.length_cons]
    have first := shorter isSpace rest
    have second := shorter (!isSpace ·) (rest.dropWhile isSpace)
    omega
  | false =>
    have first := shorter (!isSpace ·) rest
    rw [List.dropWhile_cons_of_neg (by rw [blank]; exact Bool.false_ne_true),
      List.dropWhile_cons_of_pos (by rw [blank]; rfl), List.length_cons]
    omega

/-- A line is cut behind its first word. -/
theorem splitLine_eq {text : Bytes} (some_ : text ≠ []) :
    splitLine text = firstPiece text :: splitLine (behindPiece text) := by
  have blanks : ∀ byte ∈ text.takeWhile isSpace, isSpace byte :=
    fun _ => List.mem_takeWhile_imp
  have leading := splitFrom_blanks blanks (text.dropWhile isSpace)
  rw [List.takeWhile_append_dropWhile] at leading
  have starts := behindPiece_starts text
  have parts := List.takeWhile_append_dropWhile (p := (!isSpace ·)) (l := text.dropWhile isSpace)
  have solid := firstPiece_solid text
  rw [splitLine, if_neg some_, leading, ← parts]
  change splitFrom none (firstPiece text ++ behindPiece text) = _
  cases rest : behindPiece text with
  | nil =>
    by_cases empty : firstPiece text = []
    · rw [empty]
      rfl
    · have own := splitFrom_solid solid empty none []
      rw [own]
      rfl
  | cons stop rest' =>
    rw [rest] at starts
    have blank := starts stop rfl
    have skipped : splitLine (stop :: rest') = splitFrom none rest' := by
      rw [splitLine, if_neg (List.cons_ne_nil _ _), splitFrom, if_pos blank]
    rw [skipped]
    by_cases empty : firstPiece text = []
    · have start := List.head?_dropWhile_not isSpace text
      have first : text.dropWhile isSpace = stop :: rest' := by
        rw [← parts]
        change firstPiece text ++ behindPiece text = _
        rw [empty, rest, List.nil_append]
      rw [first] at start
      exact absurd blank (by simpa using start)
    · rw [splitFrom_solid solid empty, splitFrom, if_pos blank]
      rfl

/-- Blanks are skipped up to the NUL at the latest. -/
theorem skipBlanks (text beyond : Bytes) :
    (text ++ 0 :: beyond).dropWhile isSpace = text.dropWhile isSpace ++ 0 :: beyond := by
  rw [List.dropWhile_append]
  split
  · next none =>
    rw [List.isEmpty_iff.mp none, List.nil_append]
    exact List.dropWhile_cons_of_neg (by rw [nul_solid]; exact Bool.false_ne_true)
  · rfl

/-- Behind a piece of the line stands a blank or the NUL. -/
theorem exists_stop {rest : Bytes} (starts : ∀ byte ∈ rest.head?, isSpace byte) (beyond : Bytes) :
    ∃ stop more, rest ++ 0 :: beyond = stop :: more ∧ (stop = 0 ∨ isSpace stop) := by
  cases rest with
  | nil => exact ⟨0, beyond, rfl, Or.inl rfl⟩
  | cons stop rest => exact ⟨stop, rest ++ 0 :: beyond, rfl, Or.inr (starts stop rfl)⟩

/-- The words that the loop collects from a line in the buffer are those between its blanks. -/
theorem collectArgs_eq {text : Bytes} (noNul : ∀ byte ∈ text, byte ≠ 0)
    (short : text.length < MAXLINE) (beyond : Bytes) {fuel : ℕ} (enough : text.length < fuel) :
    collectArgs fuel (text ++ 0 :: beyond) = some (splitLine text) := by
  induction fuel generalizing text with
  | zero => exact absurd enough (Nat.not_lt_zero _)
  | succ fuel ih =>
  by_cases some_ : text = []
  · rw [some_]
    rfl
  have less := behindPiece_lt some_
  have parts : firstPiece text ++ behindPiece text = text.dropWhile isSpace :=
    List.takeWhile_append_dropWhile
  have suffix := List.dropWhile_suffix isSpace (l := text)
  have pieceShort : (firstPiece text).length ≤ text.length := by
    have whole := congrArg List.length parts
    have bound := suffix.length_le
    rw [List.length_append] at whole
    omega
  have solid := firstPiece_solid text
  have own (byte : UInt8) (inside : byte ∈ firstPiece text ++ behindPiece text) : byte ≠ 0 := by
    rw [parts] at inside
    exact noNul byte (suffix.subset inside)
  have pieceNoNul (byte : UInt8) (inside : byte ∈ firstPiece text) : byte ≠ 0 :=
    own byte (List.mem_append_left _ inside)
  have rest : collectArgs fuel (behindPiece text ++ 0 :: beyond) =
      some (splitLine (behindPiece text)) :=
    ih (fun byte inside => own byte (List.mem_append_right _ inside)) (less.trans short) (by omega)
  have skipped : (text ++ 0 :: beyond).dropWhile isSpace =
      firstPiece text ++ (behindPiece text ++ 0 :: beyond) := by
    rw [← List.append_assoc, parts]
    exact skipBlanks text beyond
  obtain ⟨stop, more, shape, ends⟩ := exists_stop (behindPiece_starts text) beyond
  have zeros : (List.replicate MAXLINE (0 : UInt8)).length = MAXLINE := List.length_replicate
  have room : (firstPiece text).length < MAXLINE := by omega
  have collected := collectWord_eq solid pieceNoNul ends more (List.replicate MAXLINE 0) []
    (by rw [List.nil_append, zeros]; exact room.le)
  rw [← shape, ← skipped, overwrite_nil, List.nil_append, List.length_nil] at collected
  have closed : store (overwrite (List.replicate MAXLINE 0) (firstPiece text))
      (firstPiece text).length 0 =
        some (overwrite (List.replicate MAXLINE 0) (firstPiece text ++ [0])) := by
    rw [store_next (by rwa [zeros])]
  have string : cString (overwrite (List.replicate MAXLINE 0) (firstPiece text ++ [0])) =
      firstPiece text := cString_stored _ pieceNoNul
  obtain ⟨byte, others, split⟩ := List.exists_cons_of_ne_nil some_
  have first : byte ≠ 0 := noNul byte (by rw [split]; exact List.mem_cons_self)
  rw [splitLine_eq some_]
  rw [split, List.cons_append] at collected ⊢
  rw [collectArgs, if_neg first, collected]
  simp only [Option.bind_eq_bind, Option.bind_some]
  rw [← split, closed, Option.bind_some, rest, Option.bind_some, string]
  rfl

/-! ## What the second loop leaves -/

/-- A word is copied where it fits. -/
theorem copyWord_eq (text array copied : Bytes) (room : copied.length ≤ array.length) :
    copyWord text (overwrite array copied) copied.length =
      if (copied ++ text).length ≤ array.length then
        some (overwrite array (copied ++ text), (copied ++ text).length) else none := by
  induction text generalizing copied with
  | nil => rw [copyWord, List.append_nil, if_pos room]
  | cons byte text ih =>
    rw [copyWord, store_overwrite]
    by_cases inside : copied.length < array.length
    · have again : copied ++ byte :: text = copied ++ [byte] ++ text := by
        rw [List.append_assoc, List.singleton_append]
      have tail := ih (copied ++ [byte]) (by rw [List.length_append]; exact inside)
      rw [length_snoc] at tail
      rw [if_pos inside, Option.bind_eq_bind, Option.bind_some, tail, again]
    · have full : ¬ (copied ++ byte :: text).length ≤ array.length := by
        rw [List.length_append, List.length_cons]
        omega
      rw [if_neg inside, if_neg full]
      rfl

/-- A word and the space behind it are copied where they fit. -/
theorem copySpaced_eq {β : Type} (word array copied : Bytes) (room : copied.length ≤ array.length)
    (next : Bytes → ℕ → Option β) :
    ((copyWord word (overwrite array copied) copied.length).bind fun found =>
      (store found.1 found.2 32).bind fun buffer => next buffer (found.2 + 1)) =
        if (copied ++ (word ++ [32])).length ≤ array.length then
          next (overwrite array (copied ++ (word ++ [32]))) (copied ++ (word ++ [32])).length
        else none := by
  have longer : (copied ++ (word ++ [32])).length = (copied ++ word).length + 1 := by
    simp only [List.length_append, List.length_singleton]
    omega
  rw [copyWord_eq word array copied room, longer]
  by_cases fits : (copied ++ word).length ≤ array.length
  · rw [if_pos fits, Option.bind_some]
    dsimp only
    rw [store_overwrite, List.append_assoc]
    by_cases inside : (copied ++ word).length < array.length
    · rw [if_pos inside, if_pos (by omega), Option.bind_some]
    · rw [if_neg inside, if_neg (by omega)]
      rfl
  · rw [if_neg fits, if_neg (by omega)]
    rfl

/-- The words that are kept are copied where they fit with the spaces behind them. -/
theorem copyArgs_eq (args : List Word) (array copied : Bytes)
    (room : copied.length ≤ array.length) :
    copyArgs args (overwrite array copied) copied.length =
      if (copied ++ rebuilt args).length ≤ array.length then
        some (overwrite array (copied ++ rebuilt args), (copied ++ rebuilt args).length)
      else none := by
  induction args using rebuilt.induct generalizing copied with
  | case1 => rw [copyArgs, rebuilt, List.append_nil, if_pos room]
  | case2 word dropped => rw [copyArgs, rebuilt, if_pos dropped, if_pos dropped, List.append_nil,
      if_pos room]
  | case3 word kept =>
    have copied_ := copySpaced_eq word array copied room fun buffer pos => some (buffer, pos)
    rw [copyArgs, rebuilt, if_neg kept, if_neg kept]
    exact copied_
  | case4 word next rest dropped ih =>
    rw [copyArgs, rebuilt, if_pos dropped, if_pos dropped]
    exact ih copied room
  | case5 word next rest kept ih =>
    have copied_ := copySpaced_eq word array copied room (copyArgs (next :: rest))
    have again : copied ++ (word ++ 32 :: rebuilt (next :: rest)) =
        copied ++ (word ++ [32]) ++ rebuilt (next :: rest) := by simp
    rw [copyArgs, rebuilt, if_neg kept, if_neg kept, again]
    refine Eq.trans copied_ ?_
    by_cases fits : (copied ++ (word ++ [32])).length ≤ array.length
    · rw [if_pos fits, ih _ fits]
    · have full : ¬ (copied ++ (word ++ [32]) ++ rebuilt (next :: rest)).length ≤
          array.length := by
        rw [List.length_append]
        omega
      rw [if_neg fits, if_neg full]

/-- The rebuilt line is stored exactly where it leaves room for the NUL. -/
theorem rebuild_eq (args : List Word) (array : Bytes) :
    rebuild args array = if (rebuilt args).length < array.length then
      some (overwrite array (rebuilt args ++ [0]), (rebuilt args).length) else none := by
  have copied := copyArgs_eq args array [] (Nat.zero_le _)
  rw [overwrite_nil, List.length_nil, List.nil_append] at copied
  rw [rebuild, copied]
  by_cases fits : (rebuilt args).length ≤ array.length
  · rw [if_pos fits, Option.bind_eq_bind, Option.bind_some]
    dsimp only
    rw [store_overwrite]
    split_ifs <;> rfl
  · rw [if_neg fits, if_neg (by omega)]
    rfl

/-- The string of the array is the one of `newBuffer`. -/
theorem rebuild_newBuffer {args : List Word} (noNul : ∀ byte ∈ rebuilt args, byte ≠ 0)
    {array : Bytes} (size : array.length = MAXLINE) :
    (rebuild args array).map (fun stored => cString stored.1) = newBuffer args := by
  rw [rebuild_eq, newBuffer, size]
  by_cases fits : (rebuilt args).length < MAXLINE
  · rw [if_pos fits, if_pos fits, Option.map_some, overwrite, List.append_assoc]
    exact congrArg some (cString_terminated noNul _)
  · rw [if_neg fits, if_neg fits]
    rfl

/-! ## What `parseLine` leaves -/

/-- A text begins with a word, up to an unescaped blank or its end, and goes on with a rest. -/
inductive Reads : Bytes → Word → Bytes → Prop
  /-- The word ends. -/
  | stop {rest : Bytes} (starts : ∀ byte ∈ rest.head?, isSpace byte) : Reads rest [] rest
  /-- An escaped space. -/
  | space {text rest : Bytes} {word : Word} (tail : Reads text word rest) :
    Reads (92 :: 32 :: text) (32 :: word) rest
  /-- A backslash and another byte. -/
  | backslash {text rest : Bytes} {word : Word} {next : UInt8} (other : next ≠ 32)
    (tail : Reads text word rest) : Reads (92 :: next :: text) (92 :: next :: word) rest
  /-- A byte. -/
  | byte {text rest : Bytes} {word : Word} {byte : UInt8} (plain : byte ≠ 92)
    (solid : isSpace byte = false) (tail : Reads text word rest) :
    Reads (byte :: text) (byte :: word) rest

section

variable {text rest : Bytes} {word : Word}

/-- The rest is a part of the text. -/
theorem Reads.suffix (reads : Reads text word rest) : rest <:+ text := by
  induction reads with
  | stop => exact List.suffix_refl _
  | space _ ih => exact ih.trans ((List.suffix_cons _ _).trans (List.suffix_cons _ _))
  | backslash _ _ ih => exact ih.trans ((List.suffix_cons _ _).trans (List.suffix_cons _ _))
  | byte _ _ _ ih => exact ih.trans (List.suffix_cons _ _)

/-- The rest begins with a blank or is empty. -/
theorem Reads.starts (reads : Reads text word rest) : ∀ byte ∈ rest.head?, isSpace byte := by
  induction reads with
  | stop starts => exact starts
  | space _ ih => exact ih
  | backslash _ _ ih => exact ih
  | byte _ _ _ ih => exact ih

/-- The word takes no more room than it does in the text. -/
theorem Reads.length_le (reads : Reads text word rest) :
    word.length + rest.length ≤ text.length := by
  induction reads with
  | stop => exact (Nat.zero_add _).le
  | space _ ih =>
    simp only [List.length_cons]
    omega
  | backslash _ _ ih =>
    simp only [List.length_cons]
    omega
  | byte _ _ _ ih =>
    simp only [List.length_cons]
    omega

/-- The word has only bytes of the text. -/
theorem Reads.subset (reads : Reads text word rest) : word ⊆ text := by
  induction reads with
  | stop => exact List.nil_subset _
  | space _ ih =>
    exact List.cons_subset.mpr ⟨.tail _ (.head _), fun _ inside => .tail _ (.tail _ (ih inside))⟩
  | backslash _ _ ih =>
    exact List.cons_subset_cons _ (List.cons_subset_cons _ ih)
  | byte _ _ _ ih => exact List.cons_subset_cons _ ih

/-- A text that begins with another byte than a blank is longer than the rest. -/
theorem Reads.rest_lt {byte : UInt8} (solid : isSpace byte = false)
    (reads : Reads (byte :: text) word rest) : rest.length < (byte :: text).length := by
  cases reads with
  | stop starts =>
    rw [starts byte rfl] at solid
    cases solid
  | space tail =>
    have shorter := tail.suffix.length_le
    simp only [List.length_cons]
    omega
  | backslash _ tail =>
    have shorter := tail.suffix.length_le
    simp only [List.length_cons]
    omega
  | byte _ _ tail =>
    have shorter := tail.suffix.length_le
    simp only [List.length_cons]
    omega

/-- The words of a text begin with the one that is read from it. -/
theorem exists_reads {text : Bytes} {word : Word} {words : List Word}
    (read : parseFrom false (some word) text = some words) :
    ∃ more rest words', Reads text more rest ∧ words = (word ++ more) :: words' ∧
      parseFrom false none rest = some words' := by
  induction length : text.length using Nat.strong_induction_on generalizing text word with
  | _ length ih =>
  cases text with
  | nil =>
    refine ⟨[], [], [], .stop nofun, ?_, rfl⟩
    rw [← Option.some.inj read, List.append_nil]
    rfl
  | cons byte text =>
    cases blank : isSpace byte with
    | true =>
      rw [parseFrom_blank blank] at read
      obtain ⟨words', later, rfl⟩ := Option.map_eq_some_iff.mp read
      refine ⟨[], byte :: text, words', .stop ?_, ?_, ?_⟩
      · intro other first
        rwa [← Option.some.inj first]
      · rw [List.append_nil]
        rfl
      · rw [parseFrom_blank blank, later]
        rfl
    | false =>
      by_cases escape : byte = 92
      · rw [escape, parseFrom_backslash] at read
        cases text with
        | nil => cases read
        | cons next text =>
          rw [parseFrom_escaped] at read
          obtain ⟨more, rest, words', reads, rfl, later⟩ :=
            ih text.length (by rw [← length]; simp only [List.length_cons]; omega) read rfl
          rw [escape]
          by_cases isBlank : next = 32
          · rw [if_pos isBlank, isBlank]
            exact ⟨32 :: more, rest, words', .space reads, by simp, later⟩
          · rw [if_neg isBlank]
            exact ⟨92 :: next :: more, rest, words', .backslash isBlank reads, by simp, later⟩
      · rw [parseFrom_byte escape blank] at read
        obtain ⟨more, rest, words', reads, rfl, later⟩ :=
          ih text.length (by rw [← length, List.length_cons]; omega) read rfl
        exact ⟨byte :: more, rest, words', .byte escape blank reads, by simp, later⟩

/-- The inner loop stops at a blank or the NUL. -/
theorem parseWord_stop {stop : UInt8} (ends : stop = 0 ∨ isSpace stop) (more array : Bytes)
    (pos : ℕ) : parseWord (stop :: more) array pos = some (array, pos, stop :: more) := by
  cases more <;> rw [parseWord, if_pos ends]

/-- A backslash and a space store the space. -/
theorem parseWord_space (more array : Bytes) (pos : ℕ) :
    parseWord (92 :: 32 :: more) array pos =
      (store array pos 32).bind fun array => parseWord more array (pos + 1) := by
  rw [parseWord, if_neg (by decide), if_pos rfl, if_pos rfl]
  rfl

/-- A backslash and another byte are both stored. -/
theorem parseWord_backslash {next : UInt8} (other : next ≠ 32) (more array : Bytes) (pos : ℕ) :
    parseWord (92 :: next :: more) array pos =
      (store array pos 92).bind fun array =>
        (store array (pos + 1) next).bind fun array => parseWord more array (pos + 2) := by
  rw [parseWord, if_neg (by decide), if_pos rfl, if_neg other]
  rfl

/-- Another byte is stored, where the memory goes on. -/
theorem parseWord_byte {byte : UInt8} (plain : byte ≠ 92) (solid : isSpace byte = false)
    (notNul : byte ≠ 0) {more : Bytes} (goesOn : more ≠ []) (array : Bytes) (pos : ℕ) :
    parseWord (byte :: more) array pos =
      (store array pos byte).bind fun array => parseWord more array (pos + 1) := by
  have inside : ¬ (byte = 0 ∨ isSpace byte = true) := by
    rw [solid]
    exact not_or.mpr ⟨notNul, Bool.false_ne_true⟩
  obtain ⟨next, others, rfl⟩ := List.exists_cons_of_ne_nil goesOn
  rw [parseWord, if_neg inside, if_neg plain]
  rfl

/-- The bytes of a word are stored in the array for a word. -/
theorem Reads.parseWord_eq (reads : Reads text word rest) (noNul : ∀ byte ∈ text, byte ≠ 0)
    (beyond array before : Bytes) (room : (before ++ word).length ≤ array.length) :
    parseWord (text ++ 0 :: beyond) (overwrite array before) before.length =
      some (overwrite array (before ++ word), (before ++ word).length, rest ++ 0 :: beyond) := by
  induction reads generalizing before with
  | stop starts =>
    obtain ⟨stop, more, shape, ends⟩ := exists_stop starts beyond
    rw [shape, parseWord_stop ends, List.append_nil]
  | @space text rest word tail ih =>
    rw [List.length_append, List.length_cons] at room
    have later := ih (fun other among => noNul other (.tail _ (.tail _ among))) (before ++ [32])
      (by simp only [List.length_append, List.length_singleton]; omega)
    rw [length_snoc, List.append_assoc] at later
    rw [List.cons_append, List.cons_append, parseWord_space, store_next (by omega),
      Option.bind_some, later]
    rfl
  | @backslash text rest word next other tail ih =>
    rw [List.length_append, List.length_cons, List.length_cons] at room
    have later := ih (fun other among => noNul other (.tail _ (.tail _ among)))
      (before ++ [92] ++ [next]) (by simp only [List.length_append, List.length_singleton]; omega)
    have second : store (overwrite array (before ++ [92])) (before ++ [92]).length next = _ :=
      store_next (by rw [length_snoc]; omega) next
    rw [length_snoc, length_snoc] at later
    rw [length_snoc] at second
    rw [List.cons_append, List.cons_append, parseWord_backslash other, store_next (by omega),
      Option.bind_some, second, Option.bind_some, later]
    simp
  | @byte text rest word byte plain solid tail ih =>
    rw [List.length_append, List.length_cons] at room
    have later := ih (fun other among => noNul other (.tail _ among)) (before ++ [byte])
      (by simp only [List.length_append, List.length_singleton]; omega)
    rw [length_snoc, List.append_assoc] at later
    rw [List.cons_append, parseWord_byte plain solid (noNul byte (.head _)) (by simp),
      store_next (by omega), Option.bind_some, later]
    rfl

end

/-- A word that a byte begins is read like one that is open. -/
theorem parseFrom_open {byte : UInt8} (solid : isSpace byte = false) (rest : Bytes) :
    parseFrom false none (byte :: rest) = parseFrom false (some []) (byte :: rest) := by
  by_cases escape : byte = 92
  · rw [escape, parseFrom_backslash, parseFrom_backslash]
    cases rest <;> rfl
  · rw [parseFrom_byte escape solid, parseFrom_byte escape solid]
    rfl

/-- Blanks in front of a word are skipped. -/
theorem parseFrom_leading {blanks : Bytes} (blank : ∀ byte ∈ blanks, isSpace byte) (rest : Bytes) :
    parseFrom false none (blanks ++ rest) = parseFrom false none rest := by
  induction blanks with
  | nil => rfl
  | cons byte blanks ih =>
    have later := ih fun other inside => blank other (.tail _ inside)
    rw [List.cons_append, parseFrom_blank (blank byte (.head _)), later]
    exact id_map _

/-- A text without its leading blanks has the same words. -/
theorem parseFrom_skip (text : Bytes) :
    parseFrom false none (text.dropWhile isSpace) = parseFrom false none text := by
  have blanks : ∀ byte ∈ text.takeWhile isSpace, isSpace byte := fun _ => List.mem_takeWhile_imp
  have leading := parseFrom_leading blanks (text.dropWhile isSpace)
  rw [List.takeWhile_append_dropWhile] at leading
  exact leading.symm

section

variable (garbage last : Option Word) (done : List Word)

/-- A word becomes the last entry, behind which there is room for another. -/
theorem CommandLine.push_eq (word : Bytes) :
    CommandLine.push garbage ⟨done.length, done.map some ++ [last]⟩ word =
      some ⟨(done ++ [cString word]).length, (done ++ [cString word]).map some ++ [garbage]⟩ := by
  have room : done.length < (done.map some ++ [last]).length := by
    rw [length_snoc, List.length_map]
    exact Nat.lt_succ_self _
  have entry : (done.map some ++ [last]).set done.length (some (cString word)) =
      (done ++ [cString word]).map some := by
    rw [List.set_append_right _ _ (by rw [List.length_map]), List.length_map, Nat.sub_self,
      List.map_append]
    rfl
  have size : ((done ++ [cString word]).map some).length = done.length + 1 := by
    rw [List.length_map, length_snoc]
  unfold CommandLine.push
  dsimp only
  rw [store_inside room, Option.bind_eq_bind, Option.bind_some, entry, reallocArgv, size,
    List.take_of_length_le (by omega), length_snoc, Nat.add_sub_add_left]
  rfl

/-- The null pointer becomes the last entry. -/
theorem CommandLine.close_eq :
    CommandLine.close ⟨done.length, done.map some ++ [last]⟩ =
      some ⟨done.length + 1, done.map some ++ [none]⟩ := by
  have room : done.length < (done.map some ++ [last]).length := by
    rw [length_snoc, List.length_map]
    exact Nat.lt_succ_self _
  unfold CommandLine.close
  dsimp only
  rw [store_inside room, Option.bind_eq_bind, Option.bind_some,
    List.set_append_right _ _ (by rw [List.length_map]), List.length_map, Nat.sub_self]
  rfl

end

/-- The outer loop appends the words of the text, and the null pointer. -/
theorem parseWords_eq (garbage : Option Word) {text : Bytes} (noNul : ∀ byte ∈ text, byte ≠ 0)
    (solid : ∀ byte ∈ text.head?, isSpace byte = false) {words : List Word}
    (read : parseFrom false none text = some words) (beyond array : Bytes)
    (short : ∀ word ∈ words, word.length < array.length) (done : List Word) (last : Option Word)
    {fuel : ℕ} (enough : text.length < fuel) :
    parseWords garbage fuel (text ++ 0 :: beyond) array ⟨done.length, done.map some ++ [last]⟩ =
      some ⟨(done ++ words).length + 1, (done ++ words).map some ++ [none]⟩ := by
  induction fuel generalizing text words array done last with
  | zero => exact absurd enough (Nat.not_lt_zero _)
  | succ fuel ih =>
  cases text with
  | nil =>
    rw [← Option.some.inj read]
    change CommandLine.close _ = _
    rw [CommandLine.close_eq]
    simp
  | cons byte text =>
    have first := solid byte rfl
    rw [parseFrom_open first] at read
    obtain ⟨word, rest, words', reads, rfl, later⟩ := exists_reads read
    rw [List.nil_append] at short ⊢
    have room := short word (.head _)
    have stored := reads.parseWord_eq noNul beyond array [] (by rw [List.nil_append]; exact room.le)
    rw [List.nil_append, overwrite_nil, List.length_nil] at stored
    have closed : store (overwrite array word) word.length 0 =
        some (overwrite array (word ++ [0])) := store_next room 0
    have wordNoNul : ∀ other ∈ word, other ≠ 0 := fun other inside =>
      noNul other (reads.subset inside)
    have string : cString (overwrite array (word ++ [0])) = word :=
      cString_stored array wordNoNul
    have size : (overwrite array (word ++ [0])).length = array.length :=
      length_overwrite_snoc room 0
    have emptied : store (overwrite array (word ++ [0])) 0 0 =
        some ((overwrite array (word ++ [0])).set 0 0) := store_inside (by omega) 0
    have skipped := List.dropWhile_suffix isSpace (l := rest)
    have part := skipped.trans reads.suffix
    have onward := ih (fun other inside => noNul other (part.subset inside))
      (fun other among => by
        have stop := List.head?_dropWhile_not isSpace rest
        rw [among] at stop
        simpa using stop)
      ((parseFrom_skip rest).trans later) ((overwrite array (word ++ [0])).set 0 0)
      (fun other inside => by
        rw [List.length_set, size]
        exact short other (.tail _ inside))
      (done ++ [word]) garbage (by
        have less := reads.rest_lt first
        have shorter := skipped.length_le
        omega)
    rw [List.cons_append] at stored ⊢
    rw [parseWords, if_neg (noNul byte (.head _)), stored]
    simp only [Option.bind_eq_bind, Option.bind_some, closed, CommandLine.push_eq, string, emptied]
    rw [skipBlanks, onward, List.append_assoc, List.singleton_append]

/-- `parseLine` answers the words of its text, where each of them fits in the array for a word. -/
theorem parseLineIn_eq (garbage : Option Word) {text : Bytes} (noNul : ∀ byte ∈ text, byte ≠ 0)
    {words : List Word} (read : parseFrom false none text = some words) (beyond array : Bytes)
    (short : ∀ word ∈ words, word.length < array.length) :
    parseLineIn garbage array (text ++ 0 :: beyond) = some (CommandLine.ofWords words) := by
  have part := List.dropWhile_suffix isSpace (l := text)
  rw [← parseFrom_skip] at read
  unfold parseLineIn
  rw [skipBlanks]
  have start := List.head?_dropWhile_not isSpace text
  cases shape : text.dropWhile isSpace with
  | nil =>
    rw [shape] at read
    rw [← Option.some.inj read]
    rfl
  | cons byte rest =>
    rw [shape] at read start part
    have first : isSpace byte = false := by simpa using start
    have notNul : byte ≠ 0 := noNul byte (part.subset (.head _))
    have enough : (byte :: rest).length < (byte :: rest ++ 0 :: beyond).length := by simp
    have parsed := parseWords_eq garbage (fun other inside => noNul other (part.subset inside))
      (fun other among => by rwa [← Option.some.inj among]) read beyond array short [] none enough
    have some_ : words ≠ [] := by
      intro none_
      rw [parseFrom_open first] at read
      obtain ⟨_, _, _, _, cons, _⟩ := exists_reads read
      rw [none_] at cons
      cases cons
    rw [CommandLine.ofWords, if_neg some_]
    change (if byte = 0 then _ else _) = _
    rw [if_neg notNul]
    exact parsed

end TinyTools.Shell
