import TinyTools.Chord.Receive

/-!
# Messages in pieces

A message is an array of fixed size, and a stream of messages may arrive in pieces of any size.
The receiving loop takes every piece for a message. The commands executed are those of whole
messages as long as every message arrives in one piece; only the last one, `stable`, may be cut,
behind its word. Any other cut loses a message, changes its number or gives a null pointer to
`strcmp`.
-/

namespace TinyTools.Chord

open TinyTools.Lib

variable {m : Sent} {messages : List Sent} {pieces : List Bytes}

/-! ## Pieces -/

/-- A way in which the bytes of some messages arrive. -/
structure Segments (messages : List Sent) (pieces : List Bytes) : Prop where
  /-- `recv` returns some bytes, no more than the array holds. -/
  sized : ∀ piece ∈ pieces, piece ≠ [] ∧ piece.length ≤ MAX_MSG_LENGTH
  /-- No byte is lost or added. -/
  whole : pieces.flatten = stream messages

/-- What is executed does not depend on the pieces, whatever the array holds at first. -/
structure Independent (messages : List Sent) (pieces : List Bytes) : Prop where
  /-- The commands are those of whole messages. -/
  same : ∀ memory : Bytes, MAX_MSG_LENGTH ≤ memory.length →
    (session memory pieces).commands = (session memory (messages.map Sent.padded)).commands
  /-- No null pointer is given to `strcmp`. -/
  noNull : ∀ memory : Bytes, MAX_MSG_LENGTH ≤ memory.length →
    (session memory pieces).ending ≠ .nullCommand

/-- Every message in front of the first `stable` is one piece, and the first piece of that one has
the needed number of bytes. -/
def Intact (needed : ℕ) : List Sent → List Bytes → Prop
  | [], _ => True
  | _ :: _, [] => False
  | .stable _ :: _, piece :: _ => needed ≤ piece.length
  | _ :: messages, piece :: pieces => piece.length = MAX_MSG_LENGTH ∧ Intact 6 messages pieces

/-- Nothing follows a `stable`. -/
def StableLast (messages : List Sent) : Prop :=
  ∀ m ∈ messages.dropLast, ∀ port, m ≠ .stable port

/-- Any other message than `stable` must arrive as one piece. -/
theorem intact_cons (other : ∀ port, m ≠ .stable port) {needed : ℕ} {piece : Bytes} :
    Intact needed (m :: messages) (piece :: pieces) ↔
      piece.length = MAX_MSG_LENGTH ∧ Intact 6 messages pieces := by
  cases m with
  | stable port => exact absurd rfl (other port)
  | join _ | find _ | notify _ | keepAlive _ | resetPre => exact Iff.rfl

/-- A message fills the array. -/
theorem Sent.padded_length (m : Sent) : m.padded.length = MAX_MSG_LENGTH := by
  have short := m.text_length
  rw [padded, List.length_append, List.length_replicate]
  omega

/-- What starts inside a message is the end of its text and at least one zero. -/
theorem Sent.padded_drop (m : Sent) {start : ℕ} (inside : start < MAX_MSG_LENGTH) :
    ∃ zeros, m.padded.drop start = m.text.drop start ++ 0 :: zeros := by
  have short := m.text_length
  have some_ : MAX_MSG_LENGTH - m.text.length - (start - m.text.length) =
      MAX_MSG_LENGTH - m.text.length - (start - m.text.length) - 1 + 1 := by omega
  rw [padded, List.drop_append, List.drop_replicate, some_, List.replicate_succ]
  exact ⟨_, rfl⟩

/-- The string in a cleared array, behind a piece that starts inside a message. -/
theorem Sent.cString_cleared (m : Sent) (start : ℕ) (inside : start < MAX_MSG_LENGTH)
    {piece rest behind : Bytes} (short : piece.length ≤ MAX_MSG_LENGTH)
    (split : piece ++ rest = m.padded.drop start ++ behind) (memory : Bytes) :
    cString (recvInto (clearArray memory) piece) = (m.text.drop start).take piece.length := by
  obtain ⟨zeros, cut⟩ := m.padded_drop inside
  rw [cut, List.append_assoc, List.cons_append] at split
  have free : ∀ byte ∈ m.text.drop start, byte ≠ 0 := fun byte left =>
    text_free byte (List.mem_of_mem_drop left)
  by_cases full : piece.length = MAX_MSG_LENGTH
  · have longer : (m.text.drop start).length < piece.length := by
      have less := m.text_length
      rw [List.length_drop]
      omega
    rw [recvInto, cString_of_longer free split longer, List.take_of_length_le longer.le]
  · have cleared : (clearArray memory).drop piece.length = 0 ::
        (List.replicate (MAX_MSG_LENGTH - piece.length - 1) 0 ++
          memory.drop MAX_MSG_LENGTH) := by
      have some_ : MAX_MSG_LENGTH - piece.length = MAX_MSG_LENGTH - piece.length - 1 + 1 := by
        omega
      rw [clearArray, List.drop_append_of_le_length (by simpa using short), List.drop_replicate,
        some_, List.replicate_succ]
      rfl
    rw [recvInto, cleared, cString_take free split]

/-- A piece that reaches behind the text of a message is read as the message. -/
theorem Sent.cString_text {piece rest behind : Bytes} (m : Sent)
    (longer : m.text.length < piece.length) (split : piece ++ rest = m.padded ++ behind)
    (memory : Bytes) : cString (recvInto memory piece) = m.text := by
  have positive : 0 < MAX_MSG_LENGTH := by decide
  obtain ⟨zeros, cut⟩ := m.padded_drop positive
  rw [List.drop_zero, List.drop_zero] at cut
  rw [cut, List.append_assoc, List.cons_append] at split
  exact cString_of_longer text_free split longer _

/-- A whole message is executed, whatever the array held. -/
theorem Sent.receive_whole (m : Sent) (memory : Bytes) :
    receive (cString (recvInto memory m.padded)) = .command m.command := by
  have longer : m.text.length < m.padded.length := m.padded_length ▸ m.text_length
  have split : m.padded ++ ([] : Bytes) = m.padded ++ [] := rfl
  rw [m.cString_text longer split, receive_text]

/-! ## One round -/

variable {memory piece rest : Bytes} {later : List Bytes}

/-- A piece that is ignored only clears the array. -/
theorem session_ignored (read : receive (cString (recvInto memory piece)) = .ignored) :
    session memory (piece :: later) = session (clearArray (recvInto memory piece)) later := by
  rw [session, read]

/-- A command is executed, and the array is cleared behind it. -/
theorem session_command {c : Command} (goesOn : c ≠ .stable)
    (read : receive (cString (recvInto memory piece)) = .command c) :
    session memory (piece :: later) =
      ⟨c :: (session (clearArray (recvInto memory piece)) later).commands,
        (session (clearArray (recvInto memory piece)) later).ending⟩ := by
  rw [session, read]
  simp only [goesOn, if_false]

/-- Behind `stable` nothing is read. -/
theorem session_stable (read : receive (cString (recvInto memory piece)) = .command .stable) :
    session memory (piece :: later) = ⟨[.stable], .answered⟩ := by
  rw [session, read]
  rfl

/-- A piece without a word ends the thread. -/
theorem session_null (read : receive (cString (recvInto memory piece)) = .nullCommand) :
    session memory (piece :: later) = ⟨[], .nullCommand⟩ := by
  rw [session, read]

/-- Outside `query` a piece is one command at most. -/
theorem commands_cons_le (later : List Bytes)
    (plain : receive (cString (recvInto memory piece)) ≠ .querying) :
    (session memory (piece :: later)).commands.length ≤
      (session (clearArray (recvInto memory piece)) later).commands.length + 1 := by
  cases read : receive (cString (recvInto memory piece)) with
  | querying => exact absurd read plain
  | ignored =>
    rw [session_ignored read]
    omega
  | nullCommand =>
    rw [session_null read]
    simp
  | nullArgument =>
    rw [session, read]
    simp
  | command c =>
    by_cases final : c = .stable
    · rw [final] at read
      rw [session_stable read]
      simp
    · rw [session_command final read]
      simp

/-! ## Messages that arrive whole -/

/-- The messages up to the first `stable`. -/
def answered : List Sent → List Sent
  | [] => []
  | .stable port :: _ => [.stable port]
  | m :: messages => m :: answered messages

/-- Any other message than `stable` is another command. -/
theorem Sent.command_ne_stable (other : ∀ port, m ≠ .stable port) : m.command ≠ .stable := by
  cases m with
  | stable port => exact absurd rfl (other port)
  | join _ | find _ | notify _ | keepAlive _ | resetPre => exact Command.noConfusion

/-- Messages in front of a `stable` are answered one by one. -/
theorem answered_cons (other : ∀ port, m ≠ .stable port) :
    answered (m :: messages) = m :: answered messages := by
  cases m with
  | stable port => exact absurd rfl (other port)
  | join _ | find _ | notify _ | keepAlive _ | resetPre => rfl

/-- If nothing follows a `stable`, everything is answered. -/
theorem StableLast.answered_eq (last : StableLast messages) : answered messages = messages := by
  induction messages with
  | nil => rfl
  | cons m messages ih =>
    cases messages with
    | nil => cases m <;> rfl
    | cons next others =>
      have other : ∀ port, m ≠ .stable port := last m List.mem_cons_self
      have behind : StableLast (next :: others) := fun m' inside =>
        last m' (List.mem_cons_of_mem m inside)
      rw [answered_cons other, ih behind]

/-- Messages that arrive whole are executed up to the first `stable`. -/
theorem session_whole (messages : List Sent) (memory : Bytes) :
    (session memory (messages.map Sent.padded)).commands =
        (answered messages).map Sent.command ∧
      (session memory (messages.map Sent.padded)).ending ≠ .nullCommand := by
  induction messages generalizing memory with
  | nil => exact ⟨rfl, Ending.noConfusion⟩
  | cons m messages ih =>
    have read := m.receive_whole memory
    rw [List.map_cons]
    by_cases final : ∃ port, m = .stable port
    · obtain ⟨port, rfl⟩ := final
      rw [session_stable read]
      exact ⟨rfl, Ending.noConfusion⟩
    · rw [not_exists] at final
      have next := ih (clearArray (recvInto memory m.padded))
      rw [session_command (Sent.command_ne_stable final) read, answered_cons final,
        List.map_cons, next.1]
      exact ⟨rfl, next.2⟩

/-! ## Messages in one piece -/

/-- A piece of full size is the first message, and the others arrive behind it. -/
theorem Segments.tail (segments : Segments (m :: messages) (piece :: later))
    (full : piece.length = MAX_MSG_LENGTH) : piece = m.padded ∧ Segments messages later := by
  have length := m.padded_length
  have split : piece ++ later.flatten = m.padded ++ stream messages := segments.whole
  have same := List.append_inj split (full.trans length.symm)
  constructor
  · exact same.1
  · constructor
    · exact fun piece' inside => segments.sized piece' (List.mem_cons_of_mem piece inside)
    · exact same.2

/-- The part of `stable` that is enough: its word in a cleared array, and a blank behind it if the
array holds anything. -/
def Enough (memory : Bytes) (needed : ℕ) : Prop :=
  7 ≤ needed ∨ 6 ≤ needed ∧ ∃ before, memory = clearArray before

/-- A first piece of `stable` with enough bytes is executed. -/
theorem receive_first {port : Int32} {behind : Bytes}
    (split : piece ++ rest = (Sent.stable port).padded ++ behind)
    (short : piece.length ≤ MAX_MSG_LENGTH) (enough : Enough memory piece.length) :
    receive (cString (recvInto memory piece)) = .command .stable := by
  cases enough with
  | inl blank =>
    have front : piece.take 7 = bytes "stable" ++ [32] := by
      have same := congrArg (List.take 7) split
      rw [List.take_append_of_le_length blank] at same
      exact same
    have whole : recvInto memory piece =
        bytes "stable" ++ 32 :: (piece.drop 7 ++ memory.drop piece.length) := by
      rw [recvInto]
      nth_rewrite 1 [← List.take_append_drop 7 piece]
      rw [front]
      simp
    have word : cString (bytes "stable" ++ 32 :: (piece.drop 7 ++ memory.drop piece.length)) =
        bytes "stable" ++ 32 :: cString (piece.drop 7 ++ memory.drop piece.length) := rfl
    rw [whole, word]
    exact receive_stable_blank _
  | inr cleared =>
    obtain ⟨word, before, rfl⟩ := cleared
    have text := Sent.cString_cleared (.stable port) 0 (by decide) short split before
    rw [text]
    exact Sent.receive_stable word

/-- Messages in one piece each are executed like whole messages. -/
theorem Intact.session_eq {needed : ℕ} (intact : Intact needed messages pieces)
    (segments : Segments messages pieces) (memory : Bytes) (enough : Enough memory needed) :
    session memory pieces = session memory (messages.map Sent.padded) := by
  induction messages generalizing needed memory pieces with
  | nil =>
    have empty : pieces = [] := by
      rw [List.eq_nil_iff_forall_not_mem]
      intro piece inside
      have none_ := List.flatten_eq_nil_iff.mp segments.whole piece inside
      exact (segments.sized piece inside).1 none_
    rw [empty]
    rfl
  | cons m messages ih =>
    cases pieces with
    | nil => exact intact.elim
    | cons piece pieces =>
      have size := segments.sized piece List.mem_cons_self
      have split : piece ++ pieces.flatten = m.padded ++ stream messages := segments.whole
      have read := m.receive_whole memory
      by_cases final : ∃ port, m = .stable port
      · obtain ⟨port, rfl⟩ := final
        have some_ : needed ≤ piece.length := intact
        have more : Enough memory piece.length :=
          enough.imp some_.trans' (And.imp_left some_.trans')
        have first := receive_first split size.2 more
        rw [session_stable first, List.map_cons, session_stable read]
      · rw [not_exists] at final
        have parts := (intact_cons final).mp intact
        have tail := segments.tail parts.1
        have goesOn := Sent.command_ne_stable final
        rw [tail.1, List.map_cons, session_command goesOn read, session_command goesOn read,
          ih parts.2 tail.2 _ (Or.inr ⟨le_rfl, _, rfl⟩)]

/-- Messages in one piece each do not depend on the pieces. -/
theorem Intact.independent (intact : Intact 7 messages pieces)
    (segments : Segments messages pieces) : Independent messages pieces := by
  have equal (memory : Bytes) := intact.session_eq segments memory (Or.inl le_rfl)
  constructor
  · exact fun memory _ => congrArg Session.commands (equal memory)
  · intro memory _
    rw [equal memory]
    exact (session_whole messages memory).2

/-! ## Messages that are cut -/

/-- What is left begins behind the start of a message, and holds no more than some starts. -/
def Behind (starts : ℕ) (left : Bytes) : Prop :=
  ∃ (m : Sent) (messages : List Sent) (start : ℕ), 0 < start ∧ start ≤ MAX_MSG_LENGTH ∧
    left = m.padded.drop start ++ stream messages ∧ messages.length ≤ starts

/-- Behind a piece the rest of its message is left, or a part of the next one. -/
theorem Behind.advance (start : ℕ) (inside : start < MAX_MSG_LENGTH) (some_ : piece ≠ [])
    (short : piece.length ≤ MAX_MSG_LENGTH)
    (split : piece ++ rest = m.padded.drop start ++ stream messages) :
    Behind messages.length rest := by
  have positive := List.length_pos_of_ne_nil some_
  have length := m.padded_length
  have left_ : rest = (m.padded.drop start ++ stream messages).drop piece.length := by
    rw [← split, List.drop_left]
  by_cases within : start + piece.length ≤ MAX_MSG_LENGTH
  · refine ⟨m, messages, start + piece.length, by omega, within, ?_, le_rfl⟩
    rw [left_, List.drop_append_of_le_length (by rw [List.length_drop]; omega), List.drop_drop]
  · have all := congrArg List.length split
    rw [List.length_append, List.length_append, List.length_drop] at all
    cases messages with
    | nil =>
      have nothing : (stream []).length = 0 := rfl
      omega
    | cons next others =>
      have length' := next.padded_length
      refine ⟨next, others, start + piece.length - MAX_MSG_LENGTH, by omega, by omega, ?_, ?_⟩
      · have offset : piece.length - (m.padded.drop start).length =
            start + piece.length - MAX_MSG_LENGTH := by
          rw [List.length_drop]
          omega
        have through : (m.padded.drop start).length ≤ piece.length := by
          rw [List.length_drop]
          omega
        rw [left_, List.drop_append, List.drop_of_length_le through, List.nil_append, offset,
          stream, List.flatMap_cons, List.drop_append_of_le_length (by omega)]
        rfl
      · simp

/-- A piece that starts a message is read as a part of its text. -/
theorem Sent.cString_start (m : Sent) {behind : Bytes}
    (short : piece.length ≤ MAX_MSG_LENGTH) (split : piece ++ rest = m.padded ++ behind)
    (memory : Bytes) :
    cString (recvInto (clearArray memory) piece) = m.text.take piece.length :=
  m.cString_cleared 0 (by decide) short split memory

/-- Behind the start of a message no more commands are executed than other messages start. -/
theorem Behind.commands_le {starts : ℕ} (behind : Behind starts pieces.flatten)
    (sized : ∀ piece ∈ pieces, piece ≠ [] ∧ piece.length ≤ MAX_MSG_LENGTH) (memory : Bytes) :
    (session (clearArray memory) pieces).commands.length ≤ starts := by
  -- only a piece that starts a message can be a command
  induction pieces generalizing starts memory with
  | nil => exact Nat.zero_le starts
  | cons piece pieces ih =>
    have size := sized piece List.mem_cons_self
    have next {starts : ℕ} (behind : Behind starts pieces.flatten) :=
      ih behind (fun piece' later => sized piece' (List.mem_cons_of_mem piece later))
        (recvInto (clearArray memory) piece)
    obtain ⟨m, messages, start, positive, inside, split, few⟩ := behind
    rw [List.flatten_cons] at split
    by_cases aligned : start = MAX_MSG_LENGTH
    · have gone : m.padded.drop start = [] :=
        List.drop_of_length_le (by rw [m.padded_length, aligned])
      rw [gone, List.nil_append] at split
      cases messages with
      | nil =>
        have nothing := (List.append_eq_nil_iff.mp split).1
        exact absurd nothing size.1
      | cons first others =>
        have left_ := Behind.advance 0 (by decide) size.1 size.2 split
        have text := first.cString_start size.2 split memory
        have plain := first.receive_ne_querying piece.length
        rw [← text] at plain
        have once := commands_cons_le pieces plain
        have others_ := next left_
        rw [List.length_cons] at few
        omega
    · have below : start < MAX_MSG_LENGTH := by omega
      have left_ := Behind.advance start below size.1 size.2 split
      have text := m.cString_cleared start below size.2 split memory
      have read := m.receive_middle positive piece.length
      rw [← text] at read
      cases read with
      | inl ignored =>
        rw [session_ignored ignored]
        exact (next left_).trans few
      | inr null =>
        rw [session_null null]
        exact Nat.zero_le starts

/-- Behind the first piece no more commands are executed than messages follow the first one. -/
theorem Segments.commands_le (segments : Segments (m :: messages) (piece :: later))
    (memory : Bytes) : (session (clearArray memory) later).commands.length ≤ messages.length := by
  have size := segments.sized piece List.mem_cons_self
  have split : piece ++ later.flatten = m.padded ++ stream messages := segments.whole
  have behind := Behind.advance 0 (by decide) size.1 size.2 split
  have sized : ∀ piece' ∈ later, piece' ≠ [] ∧ piece'.length ≤ MAX_MSG_LENGTH :=
    fun piece' inside => segments.sized piece' (List.mem_cons_of_mem piece inside)
  exact behind.commands_le sized memory

/-- A piece that is not read as a command is not made up for by the pieces behind it. -/
theorem commands_ne_cons {c : Command} {others : List Command}
    (plain : receive (cString (recvInto memory piece)) ≠ .querying)
    (missed : receive (cString (recvInto memory piece)) ≠ .command c)
    (few : (session (clearArray (recvInto memory piece)) later).commands.length ≤ others.length) :
    (session memory (piece :: later)).commands ≠ c :: others := by
  intro same
  cases read : receive (cString (recvInto memory piece)) with
  | querying => exact plain read
  | ignored =>
    have more := congrArg List.length same
    rw [session_ignored read, List.length_cons] at more
    omega
  | nullCommand =>
    rw [session_null read] at same
    cases same
  | nullArgument =>
    rw [session, read] at same
    cases same
  | command c' =>
    by_cases final : c' = .stable
    · rw [final] at read
      rw [session_stable read] at same
      rw [read] at missed
      exact missed (congrArg _ (List.cons.inj same).1)
    · rw [session_command final read] at same
      rw [read] at missed
      exact missed (congrArg _ (List.cons.inj same).1)

/-- A piece behind the text of a message is a null pointer for `strcmp`. -/
theorem session_padding (later : List Bytes) {start : ℕ} (behind : m.text.length ≤ start)
    (inside : start < MAX_MSG_LENGTH) (short : piece.length ≤ MAX_MSG_LENGTH) {after : Bytes}
    (split : piece ++ rest = m.padded.drop start ++ after) (memory : Bytes) :
    session (clearArray memory) (piece :: later) = ⟨[], .nullCommand⟩ := by
  have text := m.cString_cleared start inside short split memory
  rw [List.drop_of_length_le behind, List.take_nil] at text
  apply session_null
  rw [text]
  rfl

/-- A first piece that is not read as the first message leaves its command out. -/
theorem Segments.commands_ne (segments : Segments (m :: messages) (piece :: later))
    (missed : receive (cString (recvInto (clearArray memory) piece)) ≠ .command m.command) :
    (session (clearArray memory) (piece :: later)).commands ≠
      (m :: messages).map Sent.command := by
  have size := segments.sized piece List.mem_cons_self
  have split : piece ++ later.flatten = m.padded ++ stream messages := segments.whole
  have plain := m.receive_ne_querying piece.length
  rw [← m.cString_start size.2 split memory] at plain
  have few := segments.commands_le (recvInto (clearArray memory) piece)
  rw [← List.length_map Sent.command] at few
  exact commands_ne_cons plain missed few

/-- A `stable` message is read as such only with its whole word. -/
theorem Segments.stable_le {port : Int32}
    (segments : Segments (.stable port :: messages) (piece :: later))
    (same : (session (clearArray memory) (piece :: later)).commands =
      (Sent.stable port :: messages).map Sent.command) :
    (Sent.stable port).word.length ≤ piece.length := by
  have size := segments.sized piece List.mem_cons_self
  have some_ := List.length_pos_of_ne_nil size.1
  have split : piece ++ later.flatten = (Sent.stable port).padded ++ stream messages :=
    segments.whole
  by_contra less
  have read := Sent.receive_part some_ (Nat.lt_of_not_le less)
  rw [← Sent.cString_start _ size.2 split memory] at read
  have missed : receive (cString (recvInto (clearArray memory) piece)) ≠ .command .stable := by
    rw [read]
    exact Received.noConfusion
  exact segments.commands_ne missed same

/-- Any other message is read as such only with its whole text. -/
theorem Segments.text_le (segments : Segments (m :: messages) (piece :: later))
    (other : ∀ port, m ≠ .stable port)
    (same : (session (clearArray memory) (piece :: later)).commands =
      (m :: messages).map Sent.command) : m.text.length ≤ piece.length := by
  have size := segments.sized piece List.mem_cons_self
  have some_ := List.length_pos_of_ne_nil size.1
  have split : piece ++ later.flatten = m.padded ++ stream messages := segments.whole
  by_contra cut
  have missed := m.receive_short other some_ (Nat.lt_of_not_le cut)
  rw [← m.cString_start size.2 split memory] at missed
  exact segments.commands_ne missed same

/-- A piece that ends in the padding leaves a null pointer to the next one. -/
theorem Segments.piece_full (segments : Segments (m :: messages) (piece :: later))
    (enough : m.text.length ≤ piece.length)
    (noNull : (session (clearArray memory) later).ending ≠ .nullCommand) :
    piece.length = MAX_MSG_LENGTH := by
  have length := m.padded_length
  have size := segments.sized piece List.mem_cons_self
  have split : piece ++ later.flatten = m.padded ++ stream messages := segments.whole
  by_contra part
  have inside : piece.length < MAX_MSG_LENGTH := Nat.lt_of_le_of_ne size.2 part
  have left_ : later.flatten = m.padded.drop piece.length ++ stream messages := by
    have dropped := congrArg (List.drop piece.length) split
    rwa [List.drop_left, List.drop_append_of_le_length (by omega)] at dropped
  cases later with
  | nil =>
    have sizes := congrArg List.length left_
    rw [List.flatten_nil, List.length_append, List.length_drop, List.length_nil] at sizes
    omega
  | cons next others =>
    have size' := segments.sized next (by simp)
    rw [session_padding others enough inside size'.2 left_ memory] at noNull
    exact noNull rfl

/-- The commands of whole messages need whole messages, also in a cleared array. -/
theorem intact_of_commands (segments : Segments messages pieces) (memory : Bytes)
    (same : (session (clearArray memory) pieces).commands = messages.map Sent.command)
    (noNull : (session (clearArray memory) pieces).ending ≠ .nullCommand) :
    Intact 6 messages pieces := by
  -- a message that is missed leaves too few starts for the commands that are still wanted
  induction messages generalizing pieces memory with
  | nil => trivial
  | cons m messages ih =>
    have length := m.padded_length
    have positive : 0 < MAX_MSG_LENGTH := by decide
    cases pieces with
    | nil =>
      have nothing : [] = m.padded ++ stream messages := segments.whole
      have sizes := congrArg List.length nothing
      rw [List.length_append, List.length_nil] at sizes
      omega
    | cons piece pieces =>
      by_cases final : ∃ port, m = .stable port
      · obtain ⟨port, rfl⟩ := final
        exact segments.stable_le same
      · rw [not_exists] at final
        have enough := segments.text_le final same
        have size := segments.sized piece List.mem_cons_self
        have split : piece ++ pieces.flatten = m.padded ++ stream messages := segments.whole
        have text := m.cString_start size.2 split memory
        rw [List.take_of_length_le enough] at text
        have read := m.receive_text
        rw [← text] at read
        rw [session_command (Sent.command_ne_stable final) read] at same noNull
        have full := segments.piece_full enough noNull
        have tail := segments.tail full
        have intact := ih tail.2 _ (List.cons.inj same).2 noNull
        exact (intact_cons final).mpr ⟨full, intact⟩

/-- An array full of the letter `x`. -/
def letters : Bytes := List.replicate MAX_MSG_LENGTH 120

/-- In an array that holds other letters the word `stable` alone is not enough. -/
theorem stable_needs_blank {port : Int32} {behind : Bytes}
    (split : piece ++ rest = (Sent.stable port).padded ++ behind) (word : piece.length = 6) :
    receive (cString (recvInto letters piece)) = .ignored := by
  have front : piece = bytes "stable" := by
    have same := congrArg (List.take 6) split
    rw [List.take_append_of_le_length word.ge, List.take_of_length_le word.le] at same
    exact same
  have filled : recvInto letters piece =
      bytes "stable" ++ List.replicate (MAX_MSG_LENGTH - 6) 120 := by
    rw [recvInto, letters, List.drop_replicate, word, front]
  have plain : ∀ byte ∈ recvInto letters piece,
      (bytes " ").contains byte = false ∧ (byte != 0) = true := by
    intro byte inside
    rw [filled, List.mem_append] at inside
    cases inside with
    | inl named =>
      have known := (commandWords_plain (by decide : bytes "stable" ∈ commandWords)).2 byte named
      simpa using known
    | inr letter =>
      rw [List.eq_of_mem_replicate letter]
      decide
  have text : cString (recvInto letters piece) = recvInto letters piece :=
    List.takeWhile_eq_self_iff.mpr fun byte inside => (plain byte inside).2
  have unknown : recvInto letters piece ∉ commandWords := by
    intro known
    have length : ∀ word ∈ commandWords, word.length ≤ 10 := by decide
    have short := length _ known
    rw [filled, List.length_append, List.length_replicate, MAX_MSG_LENGTH] at short
    omega
  have some_ : recvInto letters piece ≠ [] := by
    rw [filled]
    exact List.append_ne_nil_of_left_ne_nil (by decide) _
  rw [text, receive, strtok_last some_ fun byte inside => (plain byte inside).1]
  exact dispatch_ignored unknown _

/-- What does not depend on the pieces has arrived in one piece each. -/
theorem Independent.intact (independent : Independent messages pieces)
    (segments : Segments messages pieces) (last : StableLast messages) :
    Intact 7 messages pieces := by
  have same {memory : Bytes} (room : MAX_MSG_LENGTH ≤ memory.length) :
      (session memory pieces).commands = messages.map Sent.command := by
    have whole := (session_whole messages memory).1
    rw [last.answered_eq] at whole
    exact (independent.same memory room).trans whole
  have room : MAX_MSG_LENGTH ≤ (clearArray []).length := by simp [clearArray]
  have intact := intact_of_commands segments [] (same room) (independent.noNull _ room)
  cases messages with
  | nil => trivial
  | cons m messages =>
    cases pieces with
    | nil => exact intact.elim
    | cons piece pieces =>
      by_cases final : ∃ port, m = .stable port
      · obtain ⟨port, rfl⟩ := final
        have word : 6 ≤ piece.length := intact
        by_contra short
        have less : piece.length < 7 := Nat.lt_of_not_le short
        have split : piece ++ pieces.flatten = (Sent.stable port).padded ++ stream messages :=
          segments.whole
        have read := stable_needs_blank split (by omega)
        have few := segments.commands_le (recvInto letters piece)
        have full : MAX_MSG_LENGTH ≤ letters.length := by simp [letters]
        have more := same full
        rw [session_ignored read] at more
        rw [more, List.length_map, List.length_cons] at few
        omega
      · rw [not_exists] at final
        exact (intact_cons final).mpr ((intact_cons final).mp intact)

/-- Messages that arrive in one piece each are executed like whole messages. Where nothing follows
a `stable`, no others are. -/
theorem independent_iff (segments : Segments messages pieces) :
    (Intact 7 messages pieces → Independent messages pieces) ∧
      (StableLast messages → (Independent messages pieces ↔ Intact 7 messages pieces)) := by
  constructor
  · exact fun intact => intact.independent segments
  · intro last
    constructor
    · exact fun independent => independent.intact segments last
    · exact fun intact => intact.independent segments

/-- A `stable` behind another message, cut behind its word. -/
theorem independent_iff_cut_stable :
    Independent [.notify 5000, .stable 5001]
      [(Sent.notify 5000).padded, (Sent.stable 5001).padded.take 7,
        (Sent.stable 5001).padded.drop 7] := by
  have length := Sent.padded_length (.notify 5000)
  have length' := Sent.padded_length (.stable 5001)
  have segments : Segments [.notify 5000, .stable 5001]
      [(Sent.notify 5000).padded, (Sent.stable 5001).padded.take 7,
        (Sent.stable 5001).padded.drop 7] := by
    constructor
    · simp [← List.length_pos_iff_ne_nil, length, length', MAX_MSG_LENGTH]
    · simp [stream]
  apply (independent_iff segments).1
  constructor
  · exact length
  · show 6 ≤ ((Sent.stable 5001).padded.take 7).length
    rw [List.length_take, length']
    decide

/-- A last zero byte that comes alone is given to `strcmp` as a null pointer. -/
theorem padding_nullCommand :
    Segments [.notify 5000] [(Sent.notify 5000).padded.take 2047, [0]] ∧
      (∀ memory, session memory [(Sent.notify 5000).padded.take 2047, [0]] =
        ⟨[.notify 5000], .nullCommand⟩) ∧
      ¬ Independent [.notify 5000] [(Sent.notify 5000).padded.take 2047, [0]] := by
  have length := Sent.padded_length (.notify 5000)
  have text : (Sent.notify 5000).text.length = 11 := by decide
  have last : (Sent.notify 5000).padded.drop 2047 = [0] := by
    obtain ⟨zeros, cut⟩ := Sent.padded_drop (.notify 5000) (by decide : 2047 < MAX_MSG_LENGTH)
    rw [List.drop_of_length_le (by omega : (Sent.notify 5000).text.length ≤ 2047)] at cut
    have one := congrArg List.length cut
    rw [List.length_drop, length, MAX_MSG_LENGTH, List.nil_append, List.length_cons] at one
    rw [cut, List.length_eq_zero_iff.mp (by omega : zeros.length = 0), List.nil_append]
  have split : (Sent.notify 5000).padded.take 2047 ++ [0] =
      (Sent.notify 5000).padded := by
    rw [← last, List.take_append_drop]
  have long : ((Sent.notify 5000).padded.take 2047).length = 2047 := by
    rw [List.length_take, length]
    rfl
  have ends (memory : Bytes) : session memory [(Sent.notify 5000).padded.take 2047, [0]] =
      ⟨[.notify 5000], .nullCommand⟩ := by
    have front := Sent.cString_text (.notify 5000) (by omega)
      (split.trans (List.append_nil (Sent.notify 5000).padded).symm) memory
    have read := Sent.receive_text (.notify 5000)
    rw [← front] at read
    have alone : [0] ++ [] = (Sent.notify 5000).padded.drop 2047 ++ [] := by rw [last]
    have null := session_padding [] (by omega) (by decide) (by decide) alone
      (recvInto memory ((Sent.notify 5000).padded.take 2047))
    rw [session_command Command.noConfusion read, null]
    rfl
  refine ⟨?_, ends, ?_⟩
  · constructor
    · simp [← List.length_pos_iff_ne_nil, length, MAX_MSG_LENGTH]
    · simpa [stream] using split
  · intro independent
    have noNull := independent.noNull letters (by simp [letters])
    rw [ends] at noNull
    exact noNull rfl

end TinyTools.Chord
