import TinyTools.Lib.CString

/-!
# Lines of the shell

A line is read twice. First it is cut at its blanks, without regard to backslashes, into the words
that the child process scans; from these words, without the redirections among them, a line is
rebuilt in `newBuffer`, and `parseLine` reads it again, now with the backslashes.
-/

namespace TinyTools.Shell

open TinyTools.Lib

/-- The size of the buffers for a line and for a word. -/
def MAXLINE : ℕ := 1000

/-- A word of a line. -/
abbrev Word := Bytes

/-- The operators of redirections. -/
inductive Operator
  /-- Of the standard input. -/
  | input
  /-- Of the standard output. -/
  | output
  /-- Of the standard error. -/
  | error
  deriving DecidableEq

/-- The word that stands for an operator. -/
def Operator.text : Operator → Word
  | input => bytes "<"
  | output => bytes ">"
  | error => bytes "2>"

/-- The flag that `redirect` is called with. -/
def Operator.flag : Operator → ℕ
  | input => 0
  | output => 1
  | error => 2

/-- The operator that a word stands for. -/
def operator (word : Word) : Option Operator :=
  if word = Operator.input.text then some .input
  else if word = Operator.output.text then some .output
  else if word = Operator.error.text then some .error
  else none

/-- The word between the segments of a pipeline. -/
def pipeWord : Word := bytes "|"

/-! ## The words between blanks -/

/-- The words of the rest of a line. No word is open between words; a blank ends the open word, and
what is open at the end of the line is a word, even if nothing was read into it. -/
def splitFrom : Option Word → Bytes → List Word
  | word, [] => [word.getD []]
  | none, byte :: rest =>
    if isSpace byte then splitFrom none rest else splitFrom (some [byte]) rest
  | some word, byte :: rest =>
    if isSpace byte then word :: splitFrom none rest else splitFrom (some (word ++ [byte])) rest

/-- The words between the blanks of a line, as `main` collects them in `args`. -/
def splitLine (text : Bytes) : List Word := if text = [] then [] else splitFrom none text

/-- The text that `main` writes into `newBuffer`: every word with a space behind it, but for the
operators and the words behind them. -/
def rebuilt : List Word → Bytes
  | [] => []
  | [word] => if (operator word).isSome then [] else word ++ [32]
  | word :: next :: rest =>
    if (operator word).isSome then rebuilt rest else word ++ 32 :: rebuilt (next :: rest)

/-- The string in `newBuffer`. There is none when it is written past its end. -/
def newBuffer (args : List Word) : Option Bytes :=
  if (rebuilt args).length < MAXLINE then some (rebuilt args) else none

/-! ## The words between unescaped blanks -/

/-- The words of the rest of a string, read by `parseLine`. The flag says that a backslash was just
read, and no word is open between words. A backslash goes into the word together with the byte
behind it, unless this is a space, which goes into the word alone. Behind a backslash at the end
of the string the reading goes on past its end. -/
def parseFrom : Bool → Option Word → Bytes → Option (List Word)
  | false, word, [] => some word.toList
  | true, _, [] => none
  | false, word, byte :: rest =>
    if byte = 92 then parseFrom true word rest
    else if isSpace byte then (word.toList ++ ·) <$> parseFrom false none rest
    else parseFrom false (some (word.getD [] ++ [byte])) rest
  | true, word, byte :: rest =>
    parseFrom false (some (word.getD [] ++ if byte = 32 then [32] else [92, byte])) rest

/-- `commandLineStruct`. -/
structure CommandLine where
  /-- The number of entries that are in use, of an empty line none. -/
  size : ℕ
  /-- The words, with the null pointer behind them. -/
  cmdargv : List (Option Word)
  deriving DecidableEq

/-- The structure that holds some words. -/
def CommandLine.ofWords (words : List Word) : CommandLine where
  size := if words = [] then 0 else words.length + 1
  cmdargv := words.map some ++ [none]

/-- The words in front of the null pointer. -/
def CommandLine.argv (cmd : CommandLine) : List Word :=
  (cmd.cmdargv.takeWhile Option.isSome).reduceOption

/-- `parseLine`. A string that fits in `newBuffer` has no word that is too long for the buffer of a
word. -/
def parseLine (text : Bytes) : Option CommandLine :=
  CommandLine.ofWords <$> parseFrom false none text

/-- The words that `main` parses from the rebuilt line, also where its final NUL is one byte too
many for `newBuffer`. -/
def parsedWords (line : Bytes) : Option (List Word) :=
  parseFrom false none (rebuilt (splitLine (cString line)))

/-- The words of a structure are the words it was made of. -/
@[simp]
theorem CommandLine.argv_ofWords (words : List Word) : (ofWords words).argv = words := by
  unfold argv ofWords
  induction words with
  | nil => rfl
  | cons word words ih =>
    rw [List.map_cons, List.cons_append, List.takeWhile_cons_of_pos rfl,
      List.reduceOption_cons_of_some, ih]

/-- Different words are held by different structures. -/
theorem CommandLine.ofWords_injective : Function.Injective ofWords := by
  intro words words' same
  have argv := congrArg CommandLine.argv same
  rwa [argv_ofWords, argv_ofWords] at argv

/-! ## Operators -/

/-- An operator is read from its own text. -/
@[simp]
theorem operator_text (op : Operator) : operator op.text = some op := by
  cases op <;> decide

/-- The text of an operator is one. -/
theorem operator_isSome (op : Operator) : (operator op.text).isSome = true := by
  rw [operator_text]
  rfl

/-- The text of an operator is all that stands for it. -/
theorem operator_eq_some {word : Word} {op : Operator} (stands : operator word = some op) :
    word = op.text := by
  unfold operator at stands
  split_ifs at stands with input output error
  · rw [← Option.some.inj stands]
    exact input
  · rw [← Option.some.inj stands]
    exact output
  · rw [← Option.some.inj stands]
    exact error

/-- No operator stands between segments. -/
theorem operator_pipeWord : operator pipeWord = none := by decide

/-- A word with another byte than those of the operators is none. -/
theorem operator_nil : operator [] = none := by decide

/-! ## The rebuilt line -/

/-- A word that is no operator is kept. -/
theorem rebuilt_plain {word : Word} (plain : operator word = none) (rest : List Word) :
    rebuilt (word :: rest) = word ++ 32 :: rebuilt rest := by
  have kept : ¬ (operator word).isSome = true := by simp [plain]
  cases rest with
  | nil => exact if_neg kept
  | cons next rest => exact if_neg kept

/-- An operator is dropped together with the word behind it. -/
theorem rebuilt_operator (op : Operator) (file : Word) (rest : List Word) :
    rebuilt (op.text :: file :: rest) = rebuilt rest :=
  if_pos (operator_isSome op)

/-- Words without operators are all kept. -/
theorem rebuilt_all {words : List Word} (plain : ∀ word ∈ words, operator word = none) :
    rebuilt words = words.flatMap (· ++ [32]) := by
  induction words with
  | nil => rfl
  | cons word words ih =>
    have kept := ih fun other inside => plain other (List.mem_cons_of_mem _ inside)
    rw [rebuilt_plain (plain word List.mem_cons_self), kept, List.flatMap_cons,
      List.append_assoc]
    rfl

/-! ## The parsed line -/

section

variable {word : Option Word} {byte : UInt8} {rest : Bytes}

/-- No blank is a backslash. -/
theorem not_backslash (blank : isSpace byte) : byte ≠ 92 := by
  intro same
  rw [same] at blank
  exact absurd blank (by decide)

/-- A blank ends the open word. -/
theorem parseFrom_blank (blank : isSpace byte) :
    parseFrom false word (byte :: rest) = (word.toList ++ ·) <$> parseFrom false none rest := by
  rw [parseFrom, if_neg (not_backslash blank), if_pos blank]

/-- An ordinary byte goes into the word. -/
theorem parseFrom_byte (other : byte ≠ 92) (solid : isSpace byte = false) :
    parseFrom false word (byte :: rest) =
      parseFrom false (some (word.getD [] ++ [byte])) rest := by
  have stays : ¬ isSpace byte = true := by
    rw [solid]
    exact Bool.false_ne_true
  rw [parseFrom, if_neg other, if_neg stays]

/-- A backslash waits for the byte behind it. -/
theorem parseFrom_backslash : parseFrom false word (92 :: rest) = parseFrom true word rest := by
  rw [parseFrom, if_pos rfl]

/-- The byte behind a backslash goes into the word, without the backslash if it is a space. -/
theorem parseFrom_escaped :
    parseFrom true word (byte :: rest) =
      parseFrom false (some (word.getD [] ++ if byte = 32 then [32] else [92, byte])) rest := rfl

end

/-- The words parsed from `newBuffer` are those of the rebuilt line. -/
theorem parseFrom_newBuffer {args : List Word} {cmd : CommandLine}
    (parsed : (newBuffer args).bind parseLine = some cmd) :
    parseFrom false none (rebuilt args) = some cmd.argv := by
  obtain ⟨text, buffer, parsed⟩ := Option.bind_eq_some_iff.mp parsed
  unfold newBuffer at buffer
  split_ifs at buffer
  obtain ⟨words, read, rfl⟩ := Option.map_eq_some_iff.mp parsed
  rw [Option.some.inj buffer, read, CommandLine.argv_ofWords]

end TinyTools.Shell
