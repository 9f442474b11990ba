import TinyTools.Chord.Receive

/-!
# Numbers on the wire

Ports are printed with `%d` and hashes with `%u`, and both are read back with `atoi`, whose result
is an `int`. The standard leaves `atoi` undefined for a value that an `int` does not represent, so a
reader that may rely on the standard only is one that sometimes reads nothing.
-/

namespace TinyTools.Chord

open TinyTools.Lib

/-! ## The readers -/

/-- The branches of `chordNode` that read a number, as far as the standard defines it. -/
def readBranch (cmd argument : Bytes) : Option Command :=
  if cmd = bytes "join" then (standardAtoi argument).map .join
  else if cmd = bytes "find" then
    (standardAtoi argument).map fun value => .find (UInt32.ofInt value)
  else if cmd = bytes "notify" then (standardAtoi argument).map .notify
  else if cmd = bytes "keep-alive" then (standardAtoi argument).map .keepAlive
  else none

/-- The command and its number in the string that was received. -/
def readCommand (msg : Bytes) : Option Command := do
  let (cmd, rest) ← strtok (bytes " ") msg
  let (argument, _) ← strtok (bytes " ") rest
  readBranch cmd argument

/-- `atoi(reply)` in `join`, `stabilize` and `findClosestPort`, as far as the standard defines
it. -/
def readReply (reply : Bytes) : Option ℤ := standardAtoi (cString reply)

/-- What the standard defines is what a branch of the node executes. -/
theorem dispatch_of_readBranch {cmd argument : Bytes} {c : Command}
    (read : readBranch cmd argument = some c) : dispatch cmd (some argument) = .command c := by
  have value {make : ℤ → Command} (made : (standardAtoi argument).map make = some c) :
      make (atoi argument) = c := by
    obtain ⟨number, defined, same⟩ := Option.map_eq_some_iff.mp made
    rw [atoi_standard defined, same]
  unfold readBranch at read
  split_ifs at read with join find notify keepAlive
  · rw [join, ← value read]
    rfl
  · rw [find, ← value read]
    rfl
  · rw [notify, ← value read]
    rfl
  · rw [keepAlive, ← value read]
    rfl

/-- What the standard defines is what the node executes. -/
theorem receive_of_readCommand {msg : Bytes} {c : Command} (read : readCommand msg = some c) :
    receive msg = .command c := by
  obtain ⟨⟨cmd, rest⟩, first, later⟩ := Option.bind_eq_some_iff.mp read
  obtain ⟨⟨argument, behind⟩, second, branch⟩ := Option.bind_eq_some_iff.mp later
  simp only [receive, first, second, Option.map_some]
  exact dispatch_of_readBranch branch

/-! ## Round trips -/

/-- Every message with a number and every reply is read as it was meant, whatever the receiver's
array held and whatever the replier's array holds behind the text. -/
structure RoundTrip (port : Int32) (hash : UInt32) : Prop where
  /-- The messages. -/
  message : ∀ m ∈ [Sent.join port, .notify port, .keepAlive port, .find hash], ∀ memory : Bytes,
    readCommand (cString (recvInto memory m.padded)) = some m.command
  /-- The replies. -/
  reply : ∀ garbage : Bytes, readReply (signedDecimal port.toInt ++ 0 :: garbage) =
    some port.toInt

/-- What comes back as the standard defines it is executed. -/
theorem RoundTrip.executed {port : Int32} {hash : UInt32} (trip : RoundTrip port hash) :
    ∀ m ∈ [Sent.join port, .notify port, .keepAlive port, .find hash], ∀ memory : Bytes,
      receive (cString (recvInto memory m.padded)) = .command m.command :=
  fun m sent memory => receive_of_readCommand (trip.message m sent memory)

/-- The string of a received array is the text that was sent. -/
theorem Sent.cString_padded (m : Sent) (memory : Bytes) :
    cString (recvInto memory m.padded) = m.text := by
  have short := m.text_length
  have zeros : MAX_MSG_LENGTH - m.text.length = MAX_MSG_LENGTH - m.text.length - 1 + 1 := by
    omega
  rw [recvInto, padded, zeros, List.replicate_succ, List.append_assoc, List.cons_append]
  exact cString_terminated text_free _

/-- A received text with a number takes the branch of its word. -/
theorem Sent.readCommand_text {m : Sent} (some_ : m ≠ .resetPre) :
    readCommand m.text = readBranch m.word m.number := by
  have plain := commandWords_plain m.word_mem
  have split : m.text = m.word ++ 32 :: m.number := by
    cases m.tail_cases with
    | inl bare => exact absurd bare.1 some_
    | inr more => rw [text_eq, more.2]
  have first := strtok_word plain.1 (fun byte inside => (plain.2 byte inside).1)
    (by decide : (bytes " ").contains 32 = true) m.number
  have free : ∀ byte ∈ m.number, (bytes " ").contains byte = false := by
    intro byte inside
    by_contra blank
    have same : byte = 32 := by simpa [bytes] using blank
    have printed := number_byte byte inside
    rw [same] at printed
    exact absurd printed (by decide)
  have second := strtok_last (number_ne_nil some_) free
  rw [split]
  simp only [readCommand, first, second, Option.bind_eq_bind, Option.bind_some]

/-- A printed port is read back. -/
theorem standardAtoi_port {port : Int32} (low : 1 ≤ port.toInt) :
    standardAtoi (signedDecimal port.toInt) = some port.toInt := by
  have high := port.toInt_lt
  have size : (port.toInt.natAbs : ℤ) = port.toInt := by omega
  rw [signedDecimal, if_neg (by omega), standardAtoi_decimal, if_pos (by omega), size]

/-- A printed hash is read back exactly when it is in the lower half of the ring. -/
theorem readBranch_find (hash : UInt32) :
    readBranch (Sent.find hash).word (Sent.find hash).number = some (Sent.find hash).command ↔
      hash.toNat < 2 ^ 31 := by
  have branch : readBranch (Sent.find hash).word (Sent.find hash).number =
      (standardAtoi (decimal hash.toNat)).map fun value => .find (UInt32.ofInt value) := rfl
  rw [branch, standardAtoi_decimal]
  by_cases lower : hash.toNat < 2 ^ 31
  · have same : UInt32.ofInt (hash.toNat : ℤ) = hash := by
      apply UInt32.toNat_inj.mp
      rw [UInt32.ofInt, UInt32.toNat_ofNat']
      omega
    rw [if_pos lower, Option.map_some, same]
    exact iff_of_true rfl lower
  · rw [if_neg lower]
    exact iff_of_false (by simp) lower

/-- For every port, all messages and replies are read back as the standard defines it exactly for
the hashes in the lower half of the ring. -/
theorem roundTrip_iff (port : Int32) (hash : UInt32) (low : 1 ≤ port.toInt) :
    RoundTrip port hash ↔ hash.toNat < 2 ^ 31 := by
  have find := readBranch_find hash
  constructor
  · intro trip
    have read := trip.message (.find hash) (by simp) []
    rw [Sent.cString_padded, Sent.readCommand_text (by simp)] at read
    exact find.mp read
  · intro lower
    have number := standardAtoi_port low
    constructor
    · intro m member memory
      simp only [List.mem_cons, List.not_mem_nil, or_false] at member
      rw [Sent.cString_padded]
      rcases member with join | notify | keepAlive | hashed
      · rw [join, Sent.readCommand_text (by simp)]
        exact congrArg (Option.map Command.join) number
      · rw [notify, Sent.readCommand_text (by simp)]
        exact congrArg (Option.map Command.notify) number
      · rw [keepAlive, Sent.readCommand_text (by simp)]
        exact congrArg (Option.map Command.keepAlive) number
      · rw [hashed, Sent.readCommand_text (by simp)]
        exact find.mpr lower
    · intro garbage
      have free : ∀ byte ∈ signedDecimal port.toInt, byte ≠ 0 := by
        intro byte printed zero
        rw [zero] at printed
        exact absurd (signedDecimal_byte printed) (by decide)
      rw [readReply, cString_terminated free, number]

/-- The first hash of the upper half with the first port. -/
theorem roundTrip_iff_upper : RoundTrip 1 2147483648 ↔ (2147483648 : UInt32).toNat < 2 ^ 31 :=
  roundTrip_iff 1 2147483648 (by decide)

/-- The standard promises nothing for the first hash of the upper half. -/
theorem not_roundTrip_upper : 1 ≤ (4000 : Int32).toInt ∧ (4000 : Int32).toInt ≤ 65535 ∧
    ¬ RoundTrip 4000 2147483648 := by
  refine ⟨by decide, by decide, fun trip => ?_⟩
  have read := trip.message (.find 2147483648) (by simp) []
  rw [Sent.cString_padded, Sent.readCommand_text (by simp)] at read
  exact absurd ((readBranch_find 2147483648).mp read) (by decide)

end TinyTools.Chord
