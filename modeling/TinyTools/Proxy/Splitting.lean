import TinyTools.Proxy.Chunked

/-!
# A stream read line by line

Calls of `readlinex` with a buffer of one size cut an intact stream into lines, however `read`
delivers it: a refill can fall anywhere inside a line, and neither the line nor what is left of the
stream depends on where. A text is the concatenation of one such list of lines only.
-/

namespace TinyTools.Proxy

open TinyTools.Lib

/-- A text cut for a buffer of a given size, which also holds the terminating zero. -/
def splitLines (size : ℕ) (text : Bytes) : List Bytes := chop (takeLine (size - 1)) text

/-- Pieces of a text as they are read into a buffer of a given size. -/
structure AreLines (size : ℕ) (pieces : List Bytes) : Prop where
  /-- No piece is empty. -/
  some_ : ∀ piece ∈ pieces, piece ≠ []
  /-- Every piece fits in front of the terminating zero. -/
  short : ∀ piece ∈ pieces, piece.length ≤ size - 1
  /-- A newline is the last byte of its piece. -/
  newline : ∀ piece ∈ pieces, 10 ∉ piece.dropLast
  /-- A piece with another one behind it ends with a newline or fills the buffer. -/
  ends : pieces.Pairwise fun piece _ => piece.getLast? = some 10 ∨ piece.length = size - 1

/-- Calls of `readlinex` one after the other. -/
def CommClient.lineCalls (size : ℕ) : ℕ → CommClient → List LineRead
  | 0, _ => []
  | calls + 1, c => c.readlinex size :: lineCalls size calls (c.readlinex size).client

/-! ## The first line of a text -/

/-- A line fits. -/
theorem length_takeLine_le (room : ℕ) (text : Bytes) : (takeLine room text).length ≤ room := by
  induction room generalizing text with
  | zero => exact Nat.le_refl 0
  | succ room ih =>
    cases text with
    | nil => exact Nat.zero_le _
    | cons byte rest =>
      rw [takeLine]
      split
      · exact Nat.succ_le_succ (Nat.zero_le room)
      · exact Nat.succ_le_succ (ih rest)

/-- A line goes on up to its newline. -/
theorem newline_takeLine (room : ℕ) (text : Bytes) : 10 ∉ (takeLine room text).dropLast := by
  induction room generalizing text with
  | zero => exact List.not_mem_nil
  | succ room ih =>
    cases text with
    | nil => exact List.not_mem_nil
    | cons byte rest =>
      rw [takeLine]
      split
      · exact List.not_mem_nil
      · rename_i other
        cases line : takeLine room rest with
        | nil => exact List.not_mem_nil
        | cons next later =>
          have plain := ih rest
          rw [line] at plain
          rw [List.dropLast_cons_of_ne_nil (List.cons_ne_nil next later), List.mem_cons, not_or]
          exact ⟨Ne.symm other, plain⟩

/-- A line ends with a newline, fills the buffer or is the whole text. -/
theorem ends_takeLine (room : ℕ) (text : Bytes) :
    ((takeLine room text).getLast? = some 10 ∨ (takeLine room text).length = room) ∨
      takeLine room text = text := by
  induction room generalizing text with
  | zero => exact Or.inl (Or.inr rfl)
  | succ room ih =>
    cases text with
    | nil => exact Or.inr rfl
    | cons byte rest =>
      rw [takeLine]
      split
      · rename_i newline
        rw [newline]
        exact Or.inl (Or.inl rfl)
      · cases ih rest with
        | inl ended =>
          left
          cases ended with
          | inl newline =>
            left
            rw [List.getLast?_cons, newline]
            rfl
          | inr full => exact Or.inr (congrArg Nat.succ full)
        | inr whole =>
          right
          rw [whole]

/-- A piece that fits and has no newline in front of its last byte is one line. -/
theorem takeLine_piece {room : ℕ} {piece : Bytes} (short : piece.length ≤ room)
    (newline : 10 ∉ piece.dropLast) : takeLine room piece = piece := by
  induction room generalizing piece with
  | zero =>
    have none_ := List.eq_nil_of_length_eq_zero (Nat.le_zero.mp short)
    rw [none_]
    rfl
  | succ room ih =>
    cases piece with
    | nil => rfl
    | cons byte rest =>
      rw [takeLine]
      cases rest with
      | nil => split <;> cases room <;> rfl
      | cons next later =>
        rw [List.dropLast_cons_of_ne_nil (List.cons_ne_nil next later), List.mem_cons,
          not_or] at newline
        rw [if_neg (Ne.symm newline.1), ih (Nat.le_of_succ_le_succ short) newline.2]

/-- With room for a byte, lines are taken from the front. -/
theorem takeLine_chops_of {size : ℕ} (room : 2 ≤ size) : Chops (takeLine (size - 1)) where
  append_drop := takeLine_append_drop (size - 1)
  ne_nil text some_ := by
    obtain ⟨more, counted⟩ : ∃ more, size - 1 = more + 1 := ⟨size - 2, by omega⟩
    obtain ⟨byte, rest, rfl⟩ := List.exists_cons_of_ne_nil some_
    rw [counted, takeLine]
    split <;> exact List.cons_ne_nil _ _

/-! ## The lines of a text -/

/-- A cut text consists of lines. -/
theorem splitLines_areLines {size : ℕ} (room : 2 ≤ size) (text : Bytes) :
    AreLines size (splitLines size text) := by
  have chops := takeLine_chops_of room
  unfold splitLines
  induction text using chops.induction with
  | nil =>
    constructor
    · exact fun piece inside => absurd inside List.not_mem_nil
    · exact fun piece inside => absurd inside List.not_mem_nil
    · exact fun piece inside => absurd inside List.not_mem_nil
    · exact List.Pairwise.nil
  | cons text some_ ih =>
    rw [chops.chop_cons some_]
    constructor
    · exact List.forall_mem_cons.mpr ⟨chops.ne_nil text some_, ih.some_⟩
    · exact List.forall_mem_cons.mpr ⟨length_takeLine_le _ text, ih.short⟩
    · exact List.forall_mem_cons.mpr ⟨newline_takeLine _ text, ih.newline⟩
    · refine List.pairwise_cons.mpr ⟨fun later inside => ?_, ih.ends⟩
      cases ends_takeLine (size - 1) text with
      | inl ended => exact ended
      | inr whole =>
        rw [whole, List.drop_length] at inside
        exact absurd inside List.not_mem_nil

/-- Lines are what their text is cut into. -/
theorem AreLines.splitLines_flatten {size : ℕ} (room : 2 ≤ size) {pieces : List Bytes}
    (areLines : AreLines size pieces) : splitLines size pieces.flatten = pieces := by
  have chops := takeLine_chops_of room
  unfold splitLines
  induction pieces with
  | nil => rfl
  | cons piece rest ih =>
    have some_ := areLines.some_ piece List.mem_cons_self
    have short := areLines.short piece List.mem_cons_self
    have whole := takeLine_piece short (areLines.newline piece List.mem_cons_self)
    have ends := List.pairwise_cons.mp areLines.ends
    have later := ih ⟨fun p inside => areLines.some_ p (.tail _ inside),
      fun p inside => areLines.short p (.tail _ inside),
      fun p inside => areLines.newline p (.tail _ inside), ends.2⟩
    have first : takeLine (size - 1) (piece ++ rest.flatten) = piece := by
      cases rest with
      | nil => rw [List.flatten_nil, List.append_nil, whole]
      | cons next others =>
        have complete : Complete (size - 1) piece := by
          cases ends.1 next List.mem_cons_self with
          | inl newline => exact Or.inr (List.mem_of_getLast? newline)
          | inr full => exact Or.inl full
        rw [takeLine_append (whole.symm ▸ complete), whole]
    have together : piece ++ rest.flatten ≠ [] := List.append_ne_nil_of_left_ne_nil some_ _
    rw [List.flatten_cons, chops.chop_cons together, first, List.drop_left, later]

/-- Some of the lines are lines. -/
theorem AreLines.sublist {size : ℕ} {pieces fewer : List Bytes} (areLines : AreLines size pieces)
    (part : fewer.Sublist pieces) : AreLines size fewer where
  some_ piece inside := areLines.some_ piece (part.subset inside)
  short piece inside := areLines.short piece (part.subset inside)
  newline piece inside := areLines.newline piece (part.subset inside)
  ends := areLines.ends.sublist part

/-! ## Reading them -/

/-- A line that is read without an error is the first line of the stream, also where it ends. -/
theorem CommClient.lineLoop_bytes (room : ℕ) (c : CommClient)
    (whole : (c.lineLoop room).failed = false) :
    (c.lineLoop room).bytes = takeLine room c.unread := by
  induction room generalizing c with
  | zero => rfl
  | succ room ih =>
    obtain ⟨-, -, result⟩ := c.readFb_spec
    unfold lineLoop at whole ⊢
    cases step : c.readFb with
    | mk answer next =>
      rw [step] at result whole
      cases answer with
      | failed => cases whole
      | eof =>
        rw [result.1]
        rfl
      | byte byte =>
        dsimp only at result whole ⊢
        rw [result, takeLine]
        by_cases newline : byte = 10
        · rw [if_pos newline, if_pos newline]
        · rw [if_neg newline] at whole
          rw [if_neg newline, if_neg newline]
          exact congrArg (byte :: ·) (ih next whole)

/-- On an intact stream no line fails. -/
theorem CommClient.lineLoop_intact (room : ℕ) (c : CommClient) (open_ : c.isOpen = true)
    (intact : c.socket.broken = false) : (c.lineLoop room).failed = false := by
  induction room generalizing c with
  | zero => rfl
  | succ room ih =>
    obtain ⟨kept, -, result⟩ := c.readFb_spec
    unfold lineLoop
    cases step : c.readFb with
    | mk answer next =>
      rw [step] at kept result
      cases answer with
      | failed =>
        have broken := (result.2 open_).2
        rw [intact] at broken
        cases broken
      | eof => rfl
      | byte byte =>
        dsimp only
        split
        · rfl
        · exact ih next (kept.isOpen.trans open_) (kept.broken.trans intact)

/-- What is left of the stream behind a line that is read without an error. -/
theorem CommClient.unread_lineLoop (room : ℕ) (c : CommClient)
    (whole : (c.lineLoop room).failed = false) :
    (c.lineLoop room).client.unread = c.unread.drop (takeLine room c.unread).length := by
  have line := c.lineLoop_bytes room whole
  obtain ⟨-, split, -⟩ := c.lineLoop_spec room
  rw [line] at split
  have dropped := congrArg (List.drop (takeLine room c.unread).length) split
  rw [List.drop_left] at dropped
  exact dropped.symm

/-- One call on an intact stream: the line, its length, and the stream behind it. -/
theorem CommClient.readlinex_intact (size : ℕ) {c : CommClient} (open_ : c.isOpen = true)
    (intact : c.socket.broken = false) :
    (c.readlinex size).bytes = takeLine (size - 1) c.unread ∧
      (c.readlinex size).numBytes = (takeLine (size - 1) c.unread).length ∧
        (c.readlinex size).client.unread =
          c.unread.drop (takeLine (size - 1) c.unread).length ∧
          (c.readlinex size).client.isOpen = true ∧
            (c.readlinex size).client.socket.broken = false := by
  have whole := c.lineLoop_intact (size - 1) open_ intact
  have line := c.lineLoop_bytes (size - 1) whole
  obtain ⟨kept, -, -⟩ := c.lineLoop_spec (size - 1)
  have number : (c.readlinex size).numBytes = (takeLine (size - 1) c.unread).length := by
    unfold LineRead.numBytes readlinex
    rw [whole, line]
    rfl
  exact ⟨line, number, c.unread_lineLoop (size - 1) whole, kept.isOpen.trans open_,
    kept.broken.trans intact⟩

/-- Behind the end of the stream every call answers zero. -/
theorem CommClient.lineCalls_ended (size calls : ℕ) {c : CommClient} (open_ : c.isOpen = true)
    (intact : c.socket.broken = false) (ended : c.unread = []) :
    (c.lineCalls size calls).map (fun line => (line.numBytes, line.bytes)) =
      List.replicate calls (0, []) := by
  induction calls generalizing c with
  | zero => rfl
  | succ calls ih =>
    obtain ⟨line, number, unread, open', intact'⟩ := readlinex_intact size open_ intact
    have none_ : takeLine (size - 1) [] = [] := by cases size - 1 <;> rfl
    rw [ended, none_] at line number unread
    rw [lineCalls, List.map_cons, line, number, ih open' intact' unread]
    rfl

/-- Calls one after the other answer the lines of the stream, and zero from then on. -/
theorem CommClient.lineCalls_eq {size : ℕ} (room : 2 ≤ size) (calls : ℕ) (c : CommClient)
    (open_ : c.isOpen = true) (intact : c.socket.broken = false) :
    (c.lineCalls size ((splitLines size c.unread).length + calls)).map
        (fun line => (line.numBytes, line.bytes)) =
      (splitLines size c.unread).map (fun piece => ((piece.length : ℤ), piece)) ++
        List.replicate calls (0, []) := by
  have chops := takeLine_chops_of room
  unfold splitLines
  induction stream : c.unread using chops.induction generalizing c with
  | nil =>
    have nothing : (chop (takeLine (size - 1)) []).length + calls = calls := Nat.zero_add calls
    rw [nothing]
    exact c.lineCalls_ended size calls open_ intact stream
  | cons text some_ ih =>
    obtain ⟨line, number, unread, open', intact'⟩ := readlinex_intact size open_ intact
    rw [stream] at line number unread
    rw [chops.chop_cons some_, List.length_cons, Nat.add_right_comm, lineCalls, List.map_cons,
      line, number, ih _ open' intact' unread]
    rfl

/-- Whatever the segments an intact stream arrives in, calls of `readlinex` cut it into lines that
together are the stream and depend on it and the size only; the calls behind them answer zero. -/
theorem readlinex_splits {size : ℕ} (room : 2 ≤ size) (segments : List Segment) :
    ∃ pieces, pieces = splitLines size (segments.flatMap Segment.bytes) ∧
      pieces.flatten = segments.flatMap Segment.bytes ∧ AreLines size pieces ∧
        ∀ calls, ((CommClient.accepted ⟨segments, false, [], []⟩).lineCalls size
          (pieces.length + calls)).map (fun line => (line.numBytes, line.bytes)) =
            pieces.map (fun piece => ((piece.length : ℤ), piece)) ++
              List.replicate calls (0, []) := by
  have chops := takeLine_chops_of room
  refine ⟨_, rfl, chops.flatten_chop _, splitLines_areLines room _, fun calls => ?_⟩
  exact (CommClient.accepted ⟨segments, false, [], []⟩).lineCalls_eq room calls rfl rfl

/-- A line in two segments, the rest of the second one, and a line that fills the buffer. -/
theorem readlinex_splits_small :
    ∃ pieces, pieces = [bytes "ab\n", bytes "c\n", bytes "def", bytes "g"] ∧
      ∀ calls, ((CommClient.accepted
        ⟨[⟨97, [98]⟩, ⟨10, bytes "c\ndefg"⟩], false, [], []⟩).lineCalls 4
          (pieces.length + calls)).map (fun line => (line.numBytes, line.bytes)) =
            pieces.map (fun piece => ((piece.length : ℤ), piece)) ++
              List.replicate calls (0, []) := by
  obtain ⟨pieces, cut, -, -, answers⟩ :=
    readlinex_splits (by decide : 2 ≤ 4) [⟨97, [98]⟩, ⟨10, bytes "c\ndefg"⟩]
  exact ⟨pieces, cut.trans (by decide), answers⟩

end TinyTools.Proxy
