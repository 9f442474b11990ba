import TinyTools.Chord.Commands

/-!
# Receiving messages

A connection thread reads pieces of its byte stream into one array, takes the first word of what is
there for a command, and clears the array behind every command. The array is on the stack and not
cleared before the first piece. Two null pointers may be used: the first word of a piece without
one, and the second word of a command that needs it.
-/

namespace TinyTools.Chord

open TinyTools.Lib

/-! ## Sessions -/

/-- How a thread ends. -/
inductive Ending
  /-- No bytes are left. -/
  | closed
  /-- A `stable` command was answered. -/
  | answered
  /-- A null pointer was given to `strcmp`. -/
  | nullCommand
  /-- A null pointer was given to `atoi`. -/
  | nullArgument
deriving DecidableEq

/-- What a thread does on a connection. -/
structure Session where
  /-- The commands it executes. -/
  commands : List Command
  /-- How it ends. -/
  ending : Ending
deriving DecidableEq

/-- `recv` into the array. -/
def recvInto (memory piece : Bytes) : Bytes := piece ++ memory.drop piece.length

/-- `memset(msg, 0, sizeof(msg))`. -/
def clearArray (memory : Bytes) : Bytes :=
  List.replicate MAX_MSG_LENGTH 0 ++ memory.drop MAX_MSG_LENGTH

/-- The loop of `query`: every piece is written over the array and hashed. -/
def queryLoop (memory : Bytes) : List Bytes → List Command
  | [] => []
  | piece :: rest =>
    .query (cString (recvInto memory piece)) :: queryLoop (recvInto memory piece) rest

/-- The loop of `chordNode`, with the bytes that the memory of the array holds. -/
def session (memory : Bytes) : List Bytes → Session
  | [] => ⟨[], .closed⟩
  | piece :: rest =>
    match receive (cString (recvInto memory piece)) with
    | .nullCommand => ⟨[], .nullCommand⟩
    | .nullArgument => ⟨[], .nullArgument⟩
    | .querying =>
      -- the delimiter behind the word has been overwritten
      let memory := ((strtokAt (bytes " ") (recvInto memory piece) 0).map TokenAt.memory).getD []
      ⟨queryLoop memory rest, .closed⟩
    | .ignored => session (clearArray (recvInto memory piece)) rest
    | .command c =>
      if c = .stable then ⟨[c], .answered⟩
      else
        let later := session (clearArray (recvInto memory piece)) rest
        ⟨c :: later.commands, later.ending⟩

/-! ## What is sent -/

/-- The array of the sender, which was cleared before. -/
def Sent.padded (m : Sent) : Bytes :=
  m.text ++ List.replicate (MAX_MSG_LENGTH - m.text.length) 0

/-- The bytes of some messages. -/
def stream (messages : List Sent) : Bytes := messages.flatMap Sent.padded

variable {m : Sent}

/-! ## Parts of texts -/

/-- `stable` is executed as soon as its word is there. -/
theorem Sent.receive_stable {port : Int32} {size : ℕ} (word : 6 ≤ size) :
    receive ((stable port).text.take size) = .command .stable :=
  receive_behind (m := stable port) word

/-- A blank behind the word `stable` is enough, whatever follows it. -/
theorem receive_stable_blank (rest : Bytes) :
    receive (bytes "stable" ++ 32 :: rest) = .command .stable := by
  have plain := commandWords_plain (by decide : bytes "stable" ∈ commandWords)
  have first := strtok_word plain.1 (fun byte inside => (plain.2 byte inside).1)
    (by decide : (bytes " ").contains 32 = true) rest
  rw [receive, first]
  rfl

/-- A number that lost digits is another one. -/
theorem Sent.meaning_cut (read : ∀ port, m ≠ .stable port) {size : ℕ} (some_ : 0 < size)
    (part : size < m.number.length) : m.meaning (m.number.take size) ≠ m.command := by
  cases m with
  | join port | notify port | keepAlive port =>
    have other := atoi_take_signedDecimal port.le_toInt port.toInt_lt some_ part
    simpa [meaning, command, number] using other
  | find hash =>
    obtain ⟨less, below, cut⟩ := take_decimal hash.toNat some_ part
    have word : (UInt32.ofNat less).toNat = less :=
      UInt32.toNat_ofNat_of_lt' (below.trans hash.toNat_lt)
    have value := atoi_decimal_unsigned (UInt32.ofNat less)
    rw [word] at value
    simp only [meaning, command, number, cut, value]
    intro same
    rw [← Command.find.inj same, word] at below
    exact below.ne rfl
  | stable port => exact absurd rfl (read port)
  | resetPre => exact absurd part (Nat.not_lt_zero size)

/-- The beginning of another text than `stable` is not executed as its message is meant. -/
theorem Sent.receive_short (read : ∀ port, m ≠ .stable port) {size : ℕ} (some_ : 0 < size)
    (part : size < m.text.length) : receive (m.text.take size) ≠ .command m.command := by
  by_cases inside : size < m.word.length
  · rw [receive_part some_ inside]
    simp
  · rw [receive_behind (Nat.le_of_not_lt inside)]
    rw [text_eq, List.length_append] at part
    by_cases none_ : m.number.take (size - (m.word.length + 1)) = []
    · rw [argumentOf, if_pos none_]
      cases m with
      | stable port => exact absurd rfl (read port)
      | resetPre => exact absurd part inside
      | join _ | find _ | notify _ | keepAlive _ => exact Received.noConfusion
    · rw [argumentOf, if_neg none_, dispatch_word]
      have more : 0 < size - (m.word.length + 1) := by
        apply Nat.pos_of_ne_zero
        intro zero
        exact none_ (by rw [zero, List.take_zero])
      have less : size - (m.word.length + 1) < m.number.length := by
        rw [← tail_tail, List.length_tail]
        omega
      simpa using meaning_cut read more less

/-- The beginning of a text is never taken for `query`. -/
theorem Sent.receive_ne_querying (size : ℕ) : receive (m.text.take size) ≠ .querying := by
  by_cases nothing : size = 0
  · rw [nothing, List.take_zero]
    exact Received.noConfusion
  · have some_ := Nat.pos_of_ne_zero nothing
    by_cases inside : size < m.word.length
    · rw [receive_part some_ inside]
      exact Received.noConfusion
    · rw [receive_behind (Nat.le_of_not_lt inside)]
      generalize argumentOf _ = argument
      cases argument with
      | none => cases m <;> exact Received.noConfusion
      | some argument =>
        rw [dispatch_word]
        exact Received.noConfusion

/-- The first word of what starts inside a text is that of no command. -/
theorem Sent.strtok_middle {start size : ℕ} (inside : 0 < start) {cmd rest : Bytes}
    (found : strtok (bytes " ") ((m.text.drop start).take size) = some (cmd, rest)) :
    cmd ∉ commandWords := by
  intro known
  have token := strtok_some found
  by_cases front : start < m.word.length
  · have left_ : m.word.drop start ≠ [] := by simpa using front
    have more : 0 < size := by
      apply Nat.pos_of_ne_zero
      intro zero
      rw [zero, List.take_zero] at found
      cases found
    have plain := (commandWords_plain m.word_mem).2
    have first := strtok_take left_
      (fun byte cut => (plain byte (List.mem_of_mem_drop cut)).1) m.tail_head more
    rw [text_eq, List.drop_append_of_le_length front.le, first] at found
    rw [← (Prod.mk.inj (Option.some.inj found)).1] at known
    exact inside.ne' (commandWords_apart m.word_mem start known).1
  · -- behind the word a token is a number, and every command has a letter
    obtain ⟨byte, letter, apart⟩ := commandWords_letter known
    have origin : byte ∈ m.tail := by
      have cut := List.mem_of_mem_take (token.2 byte letter).1
      rw [text_eq, List.drop_append, List.drop_of_length_le (Nat.le_of_not_lt front),
        List.nil_append] at cut
      exact List.mem_of_mem_drop cut
    have plain := (token.2 byte letter).2
    cases tail_byte byte origin with
    | inl blank =>
      rw [blank] at plain
      exact absurd plain (by decide)
    | inr printed => simp [apart] at printed

/-- What starts inside a text is not executed. -/
theorem Sent.receive_middle {start : ℕ} (inside : 0 < start) (size : ℕ) :
    receive ((m.text.drop start).take size) = .ignored ∨
      receive ((m.text.drop start).take size) = .nullCommand := by
  cases found : strtok (bytes " ") ((m.text.drop start).take size) with
  | none => simp [receive, found]
  | some token => simp [receive, found, dispatch_ignored (strtok_middle inside found)]

end TinyTools.Chord
