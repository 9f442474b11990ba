import TinyTools.Lib.CString

/-!
# Commands

A node takes the first word of a message for a command and the second one for its argument. The
senders print a word and a port or a hash behind it, and what they print is read as it was meant.
-/

namespace TinyTools.Chord

open TinyTools.Lib

/-- `MAX_MSG_LENGTH`. -/
def MAX_MSG_LENGTH : ℕ := 2048

/-! ## Reading -/

/-- A command that is executed, with its argument. -/
inductive Command
  /-- `join`. -/
  | join (port : ℤ)
  /-- `find`. -/
  | find (hash : UInt32)
  /-- One round of `query`, with the text that is hashed. -/
  | query (key : Bytes)
  /-- `stable`. -/
  | stable
  /-- `notify`. -/
  | notify (port : ℤ)
  /-- `keep-alive`. -/
  | keepAlive (port : ℤ)
  /-- `reset-pre`. -/
  | resetPre
deriving DecidableEq

/-- What the thread makes of the array. -/
inductive Received
  /-- A command is executed. -/
  | command (c : Command)
  /-- The loop of `query` is entered. -/
  | querying
  /-- No command is recognised. -/
  | ignored
  /-- A null pointer is given to `strcmp`. -/
  | nullCommand
  /-- A null pointer is given to `atoi`. -/
  | nullArgument
deriving DecidableEq

/-- A branch that reads an argument. -/
def withArgument (execute : Bytes → Command) : Option Bytes → Received
  | none => .nullArgument
  | some argument => .command (execute argument)

/-- The branches of `chordNode` by the first word; the second one may be the null pointer. -/
def dispatch (cmd : Bytes) (argument : Option Bytes) : Received :=
  if cmd = bytes "join" then withArgument (fun text => .join (atoi text)) argument
  else if cmd = bytes "find" then
    withArgument (fun text => .find (UInt32.ofInt (atoi text))) argument
  else if cmd = bytes "query" then .querying
  else if cmd = bytes "stable" then .command .stable
  else if cmd = bytes "notify" then withArgument (fun text => .notify (atoi text)) argument
  else if cmd = bytes "keep-alive" then withArgument (fun text => .keepAlive (atoi text)) argument
  else if cmd = bytes "reset-pre" then .command .resetPre
  else .ignored

/-- One round of the loop, on the string in the array. -/
def receive (msg : Bytes) : Received :=
  match strtok (bytes " ") msg with
  | none => .nullCommand
  | some (cmd, rest) => dispatch cmd ((strtok (bytes " ") rest).map Prod.fst)

/-! ## Messages as they are sent -/

/-- A message of the senders; a port is an `int`, whatever was typed for it. -/
inductive Sent
  /-- `join %d`. -/
  | join (port : Int32)
  /-- `find %u`. -/
  | find (hash : UInt32)
  /-- `stable %d`. -/
  | stable (port : Int32)
  /-- `notify %d`. -/
  | notify (port : Int32)
  /-- `keep-alive %d`. -/
  | keepAlive (port : Int32)
  /-- `reset-pre`. -/
  | resetPre
deriving DecidableEq

/-- The text that is printed into the array. -/
def Sent.text : Sent → Bytes
  | .join port => bytes "join " ++ signedDecimal port.toInt
  | .find hash => bytes "find " ++ decimal hash.toNat
  | .stable port => bytes "stable " ++ signedDecimal port.toInt
  | .notify port => bytes "notify " ++ signedDecimal port.toInt
  | .keepAlive port => bytes "keep-alive " ++ signedDecimal port.toInt
  | .resetPre => bytes "reset-pre"

/-- The command a message means. -/
def Sent.command : Sent → Command
  | .join port => .join port.toInt
  | .find hash => .find hash
  | .stable _ => .stable
  | .notify port => .notify port.toInt
  | .keepAlive port => .keepAlive port.toInt
  | .resetPre => .resetPre

/-- The words of all commands. -/
def commandWords : List Bytes :=
  [bytes "join", bytes "find", bytes "query", bytes "stable", bytes "notify", bytes "keep-alive",
    bytes "reset-pre"]

/-- The word of a message. -/
def Sent.word : Sent → Bytes
  | .join _ => bytes "join"
  | .find _ => bytes "find"
  | .stable _ => bytes "stable"
  | .notify _ => bytes "notify"
  | .keepAlive _ => bytes "keep-alive"
  | .resetPre => bytes "reset-pre"

/-- The printed number of a message. -/
def Sent.number : Sent → Bytes
  | .join port | .stable port | .notify port | .keepAlive port => signedDecimal port.toInt
  | .find hash => decimal hash.toNat
  | .resetPre => []

/-- The text behind the word of a message. -/
def Sent.tail : Sent → Bytes
  | .resetPre => []
  | m => 32 :: m.number

/-- The command that the word of a message and an argument mean. -/
def Sent.meaning : Sent → Bytes → Command
  | .join _, text => .join (atoi text)
  | .find _, text => .find (UInt32.ofInt (atoi text))
  | .stable _, _ => .stable
  | .notify _, text => .notify (atoi text)
  | .keepAlive _, text => .keepAlive (atoi text)
  | .resetPre, _ => .resetPre

/-- The argument that a printed number is. -/
def argumentOf (number : Bytes) : Option Bytes := if number = [] then none else some number

variable {m : Sent}

/-! ## Words -/

/-- A text is a word and what follows it. -/
theorem Sent.text_eq (m : Sent) : m.text = m.word ++ m.tail := by
  cases m <;> rfl

/-- The word of a message is one of a command. -/
theorem Sent.word_mem (m : Sent) : m.word ∈ commandWords := by
  cases m <;> simp [word, commandWords]

/-- No word of a command is a part of another, nor a proper part of itself. -/
theorem commandWords_apart {word : Bytes} (known : word ∈ commandWords) (start : ℕ) {size : ℕ}
    (found : (word.drop start).take size ∈ commandWords) : start = 0 ∧ word.length ≤ size := by
  have table : ∀ word ∈ commandWords, ∀ other ∈ commandWords, ∀ start < word.length,
      other <+: word.drop start → start = 0 ∧ other = word := by decide
  have inside : start < word.length := by
    by_contra behind
    rw [List.drop_of_length_le (Nat.le_of_not_lt behind), List.take_nil] at found
    exact absurd found (by decide)
  have same := table word known _ found start inside (List.take_prefix size (word.drop start))
  have length := congrArg List.length same.2
  rw [List.length_take] at length
  exact ⟨same.1, by omega⟩

/-- No word of a command is empty or holds a blank or a zero byte. -/
theorem commandWords_plain {word : Bytes} (known : word ∈ commandWords) :
    word ≠ [] ∧ ∀ byte ∈ word, (bytes " ").contains byte = false ∧ byte ≠ 0 := by
  revert word
  simp [commandWords, bytes]

/-- Every word of a command holds a letter. -/
theorem commandWords_letter {word : Bytes} (known : word ∈ commandWords) :
    ∃ byte ∈ word, byte ≠ 45 ∧ isDigit byte = false := by
  revert word
  simp [commandWords, bytes, isDigit]

/-- A first word that is no command is ignored. -/
theorem dispatch_ignored {cmd : Bytes} (unknown : cmd ∉ commandWords) (argument : Option Bytes) :
    dispatch cmd argument = .ignored := by
  simp only [commandWords, List.mem_cons, List.not_mem_nil, or_false, not_or] at unknown
  simp only [dispatch, unknown, if_false]

/-- The word of a message with an argument is executed. -/
@[simp]
theorem Sent.dispatch_word (argument : Bytes) :
    dispatch m.word (some argument) = .command (m.meaning argument) := by
  cases m <;> rfl

/-- The number of a message is its argument. -/
theorem Sent.meaning_number (m : Sent) : m.meaning m.number = m.command := by
  cases m with
  | join port | notify port | keepAlive port =>
    simp [meaning, command, number, atoi_signedDecimal port.le_toInt port.toInt_lt]
  | find hash => simp [meaning, command, number, atoi_decimal_unsigned]
  | stable port => rfl
  | resetPre => rfl

/-! ## Texts -/

/-- Only `reset-pre` has no number. -/
theorem Sent.number_ne_nil (some_ : m ≠ .resetPre) : m.number ≠ [] := by
  cases m with
  | resetPre => exact absurd rfl some_
  | find hash => exact decimal_ne_nil hash.toNat
  | join port | stable port | notify port | keepAlive port =>
    exact signedDecimal_ne_nil port.toInt

/-- A number is printed with a minus and number. -/
theorem Sent.number_byte : ∀ byte ∈ m.number, byte = 45 ∨ isDigit byte := by
  intro byte inside
  cases m with
  | resetPre => cases inside
  | find hash => exact Or.inr (isDigit_decimal inside)
  | join port | stable port | notify port | keepAlive port => exact signedDecimal_byte inside

/-- Behind the word of a message stands nothing, or a blank and its number. -/
theorem Sent.tail_cases (m : Sent) :
    (m = .resetPre ∧ m.tail = []) ∨ (m ≠ .resetPre ∧ m.tail = 32 :: m.number) := by
  cases m <;> simp [tail]

/-- The first byte behind a word is a blank. -/
theorem Sent.tail_head : ∀ byte ∈ m.tail.head?, (bytes " ").contains byte = true := by
  intro byte first
  cases m.tail_cases with
  | inl bare => simp [bare.2] at first
  | inr more =>
    rw [more.2] at first
    rw [← Option.some.inj first]
    decide

/-- The number stands behind the blank. -/
theorem Sent.tail_tail : m.tail.tail = m.number := by
  cases m <;> rfl

/-- Behind the word of a message stand a blank, a minus and number. -/
theorem Sent.tail_byte : ∀ byte ∈ m.tail, byte = 32 ∨ byte = 45 ∨ isDigit byte := by
  intro byte inside
  cases m.tail_cases with
  | inl bare => simp [bare.2] at inside
  | inr more =>
    rw [more.2, List.mem_cons] at inside
    exact inside.imp_right (number_byte byte)

/-- A text holds no zero byte. -/
theorem Sent.text_free : ∀ byte ∈ m.text, byte ≠ 0 := by
  intro byte inside zero
  rw [text_eq, List.mem_append, zero] at inside
  cases inside with
  | inl front => exact ((commandWords_plain m.word_mem).2 0 front).2 rfl
  | inr behind => exact absurd (tail_byte 0 behind) (by decide)

/-- A text is much shorter than the array. -/
theorem Sent.text_length (m : Sent) : m.text.length < MAX_MSG_LENGTH := by
  have short : m.word.length ≤ 10 := by
    have table : ∀ word ∈ commandWords, word.length ≤ 10 := by decide
    exact table m.word m.word_mem
  have few : m.number.length ≤ 11 := by
    cases m with
    | resetPre => decide
    | find hash =>
      have printed := length_decimal_le (by decide : 0 < 10) (hash.toNat_lt.trans (by decide))
      exact printed.trans (by decide)
    | join port | stable port | notify port | keepAlive port =>
      exact length_signedDecimal_le port.le_toInt port.toInt_lt
  have behind : m.tail.length ≤ m.number.length + 1 := by
    rw [← tail_tail, List.length_tail]
    omega
  rw [text_eq, List.length_append, MAX_MSG_LENGTH]
  omega

/-- A part of a number is one word. -/
theorem Sent.strtok_number (size : ℕ) :
    (strtok (bytes " ") (m.number.take size)).map Prod.fst = argumentOf (m.number.take size) := by
  by_cases empty : m.number.take size = []
  · rw [empty]
    rfl
  · have free : ∀ byte ∈ m.number.take size, (bytes " ").contains byte = false := by
      intro byte inside
      have printed := number_byte byte (List.mem_of_mem_take inside)
      by_contra blank
      have same : byte = 32 := by simpa [bytes] using blank
      rw [same] at printed
      exact absurd printed (by decide)
    rw [strtok_last empty free, argumentOf, if_neg empty]
    rfl

/-! ## Reading texts -/

/-- The first word of the beginning of a text. -/
theorem Sent.receive_take {size : ℕ} (more : 0 < size) :
    receive (m.text.take size) = dispatch (m.word.take size)
      (argumentOf (m.number.take (size - (m.word.length + 1)))) := by
  have plain := commandWords_plain m.word_mem
  have first := strtok_take plain.1 (fun byte inside => (plain.2 byte inside).1)
    m.tail_head more
  have second := m.strtok_number (size - (m.word.length + 1))
  rw [text_eq, receive, first, tail_tail, ← second]

/-- A part of the word is ignored. -/
theorem Sent.receive_part {size : ℕ} (more : 0 < size) (part : size < m.word.length) :
    receive (m.text.take size) = .ignored := by
  have unknown : m.word.take size ∉ commandWords := fun found =>
    part.not_ge (commandWords_apart m.word_mem 0 found).2
  rw [receive_take more, dispatch_ignored unknown]

/-- The word and a part of the number. -/
theorem Sent.receive_behind {size : ℕ} (whole : m.word.length ≤ size) :
    receive (m.text.take size) = dispatch m.word
      (argumentOf (m.number.take (size - (m.word.length + 1)))) := by
  have some_ := List.length_pos_of_ne_nil (commandWords_plain m.word_mem).1
  rw [receive_take (some_.trans_le whole), List.take_of_length_le whole]

/-- A whole text is executed as its message is meant. -/
theorem Sent.receive_text (m : Sent) : receive m.text = .command m.command := by
  have length : m.text.length = m.word.length + m.tail.length := by
    rw [text_eq, List.length_append]
  have behind : m.tail.length ≤ m.number.length + 1 := by
    rw [← tail_tail, List.length_tail]
    omega
  have all : m.number.take (m.text.length - (m.word.length + 1)) = m.number := by
    apply List.take_of_length_le
    rw [← tail_tail, List.length_tail]
    omega
  have whole : m.word.length ≤ m.text.length := by omega
  have read := receive_behind whole
  rw [List.take_length, all] at read
  rw [read]
  by_cases bare : m = .resetPre
  · rw [bare]
    rfl
  · rw [argumentOf, if_neg (number_ne_nil bare), dispatch_word, meaning_number]

end TinyTools.Chord
