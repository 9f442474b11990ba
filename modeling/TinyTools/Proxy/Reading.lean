import TinyTools.Lib.Chop
import TinyTools.Proxy.CommClient

/-!
# What reading leaves unread

Reading a line takes its bytes from the front of the unread stream, whatever the segments, and says
nothing to the peer. `readx` does so too as long as it empties the line buffer; it answers what is
left there, or one segment cut to the size asked for.
-/

namespace TinyTools.Proxy

open TinyTools.Lib

/-- The line that starts a text, with room for a number of bytes. -/
def takeLine : ℕ → Bytes → Bytes
  | 0, _ => []
  | _ + 1, [] => []
  | room + 1, byte :: rest => if byte = 10 then [byte] else byte :: takeLine room rest

/-- The bytes left of a refill are the chunk. -/
theorem LineBuffer.left_refill (chunk : Bytes) :
    (LineBuffer.refill chunk).left = chunk.take MAXLINE := by
  rw [left, refill, List.drop_zero, List.take_length]

/-- Taking a byte takes it from the bytes left. -/
theorem LineBuffer.next_some {line line' : LineBuffer} {byte : UInt8}
    (taken : line.next = some (byte, line')) :
    line.left = byte :: line'.left ∧ line'.counter < MAXLINE := by
  have inside := line.inside
  have small := line.small
  unfold next at taken
  split at taken
  · obtain ⟨rfl, rfl⟩ := Prod.mk.inj (Option.some.inj taken)
    refine ⟨?_, by dsimp only; omega⟩
    have below : line.ptr < line.buffer.length := by omega
    obtain ⟨n, counted⟩ : ∃ n, line.counter = n + 1 := ⟨line.counter - 1, by omega⟩
    simp only [left, List.get_eq_getElem, counted, Nat.add_sub_cancel]
    rw [List.drop_eq_getElem_cons below, List.take_succ_cons]
  · cases taken

/-- No byte can be taken only when none is left. -/
theorem LineBuffer.next_none {line : LineBuffer} (none_ : line.next = none) : line.left = [] := by
  unfold next at none_
  split at none_
  · cases none_
  · rename_i zero
    rw [left, Nat.eq_zero_of_not_pos zero, List.take_zero]

/-- What `read` leaves behind is what it did not answer. -/
theorem Socket.read_some {s s' : Socket} {size : ℕ} {chunk : Bytes}
    (ran : s.read size = (some chunk, s')) :
    s.pending.flatMap Segment.bytes = chunk ++ s'.pending.flatMap Segment.bytes ∧
      s'.broken = s.broken ∧ s'.sent = s.sent ∧ s'.outcomes = s.outcomes ∧ chunk.length ≤ size ∧
        (chunk = [] → 0 < size → s.pending = [] ∧ s.broken = false) := by
  unfold read at ran
  cases arriving : s.pending with
  | nil =>
    simp only [arriving, Prod.mk.injEq] at ran
    obtain ⟨ended, rfl⟩ := ran
    split at ended
    · cases ended
    · rename_i intact
      obtain rfl := Option.some.inj ended
      rw [arriving]
      exact ⟨rfl, rfl, rfl, rfl, Nat.zero_le _, fun _ _ => ⟨rfl, by simpa using intact⟩⟩
  | cons segment others =>
    simp only [arriving, Prod.mk.injEq, Option.some.injEq] at ran
    obtain ⟨rfl, rfl⟩ := ran
    refine ⟨?_, rfl, rfl, rfl, List.length_take_le .., ?_⟩
    · have restored : (consSegment (segment.bytes.drop size) others).flatMap Segment.bytes =
          segment.bytes.drop size ++ others.flatMap Segment.bytes := by
        cases segment.bytes.drop size <;> rfl
      rw [restored, ← List.append_assoc, List.take_append_drop]
      rfl
    · intro empty room
      cases size with
      | zero => cases room
      | succ n => cases empty


/-! ## Single reads -/

/-- A connection after reading: only the unread bytes have changed. -/
structure CommClient.Kept (c c' : CommClient) : Prop where
  /-- It is open as before. -/
  isOpen : c'.isOpen = c.isOpen
  /-- The end of its stream is the same. -/
  broken : c'.socket.broken = c.socket.broken
  /-- Nothing was sent. -/
  sent : c'.socket.sent = c.socket.sent
  /-- The outcomes of writes are still to come. -/
  outcomes : c'.socket.outcomes = c.socket.outcomes

/-- A client that does nothing keeps everything. -/
theorem CommClient.Kept.rfl {c : CommClient} : c.Kept c :=
  ⟨Eq.refl _, Eq.refl _, Eq.refl _, Eq.refl _⟩

/-- What is kept twice is kept. -/
theorem CommClient.Kept.trans {c₁ c₂ c₃ : CommClient} (first : c₁.Kept c₂) (second : c₂.Kept c₃) :
    c₁.Kept c₃ :=
  ⟨second.isOpen.trans first.isOpen, second.broken.trans first.broken,
    second.sent.trans first.sent, second.outcomes.trans first.outcomes⟩

/-- A failing `read` changes nothing. -/
theorem Socket.read_none {s s' : Socket} {size : ℕ} (ran : s.read size = (none, s')) :
    s' = s ∧ s.pending = [] ∧ s.broken = true := by
  unfold read at ran
  cases arriving : s.pending with
  | nil =>
    simp only [arriving, Prod.mk.injEq] at ran
    obtain ⟨failed, rfl⟩ := ran
    split at failed
    · exact ⟨rfl, rfl, ‹_›⟩
    · cases failed
  | cons segment others =>
    simp only [arriving, Prod.mk.injEq] at ran
    cases ran.1

/-- What `_read_fb` does to the unread bytes. -/
theorem CommClient.readFb_spec (c : CommClient) :
    c.Kept c.readFb.2 ∧ (c.isOpen = true → c.readFb.2.line.counter < MAXLINE) ∧
      match c.readFb.1 with
      | .byte byte => c.unread = byte :: c.readFb.2.unread
      | .eof => c.unread = [] ∧ c.readFb.2.unread = [] ∧ c.socket.broken = false
      | .failed => c.readFb.2.unread = c.unread ∧
          (c.isOpen = true → c.unread = [] ∧ c.socket.broken = true) := by
  unfold readFb
  by_cases closed : c.isOpen = false
  · rw [if_pos closed]
    have never : c.isOpen ≠ true := by rw [closed]; decide
    exact ⟨.rfl, fun open_ => absurd open_ never, rfl, fun open_ => absurd open_ never⟩
  rw [if_neg closed]
  cases taken : c.line.next with
  | some result =>
    obtain ⟨byte, line⟩ := result
    obtain ⟨left, short⟩ := LineBuffer.next_some taken
    refine ⟨⟨rfl, rfl, rfl, rfl⟩, fun _ => short, ?_⟩
    simp only [unread, left, List.cons_append]
  | none =>
    have left := LineBuffer.next_none taken
    have empty : LineBuffer.empty.left = [] := rfl
    have nothing : LineBuffer.empty.counter < MAXLINE := by decide
    cases answered : c.socket.read MAXLINE with
    | mk chunk socket =>
      cases chunk with
      | none =>
        obtain ⟨rfl, arriving, broken⟩ := Socket.read_none answered
        refine ⟨⟨rfl, rfl, rfl, rfl⟩, fun _ => nothing, ?_⟩
        simp only [unread, left, empty, arriving, broken, List.flatMap_nil, List.append_nil,
          and_self, implies_true]
      | some chunk =>
        obtain ⟨split, broken, sent, outcomes, short, ends⟩ := Socket.read_some answered
        have refilled : (LineBuffer.refill chunk).left = chunk := by
          rw [LineBuffer.left_refill, List.take_of_length_le short]
        dsimp only
        cases again : (LineBuffer.refill chunk).next with
        | some result =>
          obtain ⟨byte, line⟩ := result
          obtain ⟨left', short'⟩ := LineBuffer.next_some again
          refine ⟨⟨rfl, broken, sent, outcomes⟩, fun _ => short', ?_⟩
          simp only [unread, left, List.nil_append, split]
          rw [← List.cons_append, ← left', refilled]
        | none =>
          have none_ := LineBuffer.next_none again
          rw [refilled] at none_
          obtain ⟨arriving, intact⟩ := ends none_ (by decide)
          refine ⟨⟨rfl, broken, sent, outcomes⟩, fun _ => nothing, ?_⟩
          rw [arriving, none_, List.flatMap_nil, List.nil_append] at split
          simp only [unread, left, empty, arriving, ← split, intact, List.flatMap_nil,
            List.append_nil, and_self]

/-! ## Lines -/

/-- A line is taken from the front of the unread bytes. -/
theorem CommClient.lineLoop_spec (room : ℕ) (c : CommClient) :
    c.Kept (c.lineLoop room).client ∧
      c.unread = (c.lineLoop room).bytes ++ (c.lineLoop room).client.unread ∧
        (c.isOpen = true → 0 < room → (c.lineLoop room).client.line.counter < MAXLINE) := by
  induction room generalizing c with
  | zero => exact ⟨.rfl, rfl, fun _ none => absurd none (Nat.lt_irrefl 0)⟩
  | succ room ih =>
    obtain ⟨kept, short, result⟩ := c.readFb_spec
    unfold lineLoop
    cases step : c.readFb with
    | mk answer next =>
      rw [step] at kept short result
      cases answer with
      | failed => exact ⟨kept, result.1.symm, fun open_ _ => short open_⟩
      | eof => exact ⟨kept, result.1.trans result.2.1.symm, fun open_ _ => short open_⟩
      | byte byte =>
        obtain ⟨kept', split, short'⟩ := ih next
        dsimp only at result ⊢
        by_cases newline : byte = 10
        · rw [if_pos newline]
          exact ⟨kept, result, fun open_ _ => short open_⟩
        · rw [if_neg newline]
          refine ⟨kept.trans kept', ?_, fun open_ _ => ?_⟩
          · rw [result, split]
            rfl
          · cases room with
            | zero => exact short open_
            | succ room => exact short' (kept.isOpen.trans open_) (Nat.succ_pos room)

/-- A line that the unread bytes hold completely is read as it is. -/
theorem CommClient.lineLoop_complete (room : ℕ) (c : CommClient) (open_ : c.isOpen = true)
    (complete : (takeLine room c.unread).length = room ∨ 10 ∈ takeLine room c.unread) :
    (c.lineLoop room).bytes = takeLine room c.unread ∧ (c.lineLoop room).failed = false := by
  induction room generalizing c with
  | zero => exact ⟨rfl, rfl⟩
  | succ room ih =>
    obtain ⟨kept, -, result⟩ := c.readFb_spec
    unfold lineLoop
    cases step : c.readFb with
    | mk answer next =>
      rw [step] at kept result
      cases answer with
      | failed =>
        rw [(result.2 open_).1, takeLine] at complete
        rcases complete with short | newline
        · cases short
        · cases newline
      | eof =>
        rw [result.1, takeLine] at complete
        rcases complete with short | newline
        · cases short
        · cases newline
      | byte byte =>
        dsimp only at result ⊢
        rw [result, takeLine] at complete ⊢
        by_cases newline : byte = 10
        · rw [if_pos newline, if_pos newline]
          exact ⟨rfl, rfl⟩
        · rw [if_neg newline] at complete
          rw [if_neg newline, if_neg newline]
          have rest : (takeLine room next.unread).length = room ∨
              10 ∈ takeLine room next.unread := by
            rcases complete with full | inside
            · exact Or.inl (Nat.succ.inj full)
            · exact Or.inr ((List.mem_cons.mp inside).resolve_left (Ne.symm newline))
          obtain ⟨same, intact⟩ := ih next (kept.isOpen.trans open_) rest
          exact ⟨by rw [same], intact⟩

/-- A line was read that is not empty. -/
theorem LineRead.bytes_ne_nil {line : LineRead} (read : ¬ line.numBytes ≤ 0) : line.bytes ≠ [] := by
  rintro empty
  rw [numBytes, empty] at read
  split at read
  · exact read (by decide)
  · exact read (by decide)

/-! ## Blocks -/

/-- The counter counts the bytes that are left. -/
theorem LineBuffer.length_left (line : LineBuffer) : line.left.length = line.counter := by
  have inside := line.inside
  rw [left, List.length_take, List.length_drop]
  omega

/-- Counting off everything leaves nothing. -/
theorem LineBuffer.left_count {line : LineBuffer} {size : ℕ} (all : line.counter ≤ size) :
    (line.count size).left = [] := by
  have none : (line.count size).counter = 0 := Nat.sub_eq_zero_of_le all
  rw [left, none, List.take_zero]

/-- What `readx` does to the unread bytes. -/
theorem CommClient.readx_spec (c : CommClient) {size : ℕ} (room : 0 < size) :
    c.Kept (c.readx size).2 ∧
      match (c.readx size).1 with
      | some chunk => chunk.length + (c.readx size).2.unread.length = c.unread.length ∧
          chunk.length ≤ size ∧
          (c.line.counter ≤ size →
            c.unread = chunk ++ (c.readx size).2.unread ∧ (c.readx size).2.line.counter = 0) ∧
          (chunk = [] → c.unread = [] ∧ c.socket.broken = false)
      | none => c.isOpen = true → c.unread = [] ∧ c.socket.broken = true := by
  unfold readx
  by_cases buffered : 0 < c.line.counter
  · rw [if_pos buffered]
    have length := c.line.length_left
    refine ⟨⟨rfl, rfl, rfl, rfl⟩, ?_, List.length_take_le .., fun all => ⟨?_, ?_⟩, fun none_ => ?_⟩
    · have rest : (c.line.count size).left.length = c.line.counter - size :=
        (c.line.count size).length_left
      simp only [unread, List.length_append, List.length_take, length, rest]
      omega
    · rw [unread, unread, LineBuffer.left_count all, List.nil_append,
        List.take_of_length_le (length ▸ all)]
    · exact Nat.sub_eq_zero_of_le all
    · have short := congrArg List.length none_
      rw [List.length_take, length, List.length_nil] at short
      omega
  · have left : c.line.left = [] := by
      rw [LineBuffer.left, Nat.eq_zero_of_not_pos buffered, List.take_zero]
    rw [if_neg buffered, if_pos room]
    by_cases closed : c.isOpen = false
    · rw [if_pos closed]
      exact ⟨.rfl, fun open_ => by rw [closed] at open_; cases open_⟩
    · rw [if_neg closed]
      cases answered : c.socket.read size with
      | mk chunk socket =>
        cases chunk with
        | none =>
          obtain ⟨rfl, arriving, broken⟩ := Socket.read_none answered
          refine ⟨⟨rfl, rfl, rfl, rfl⟩, fun _ => ⟨?_, broken⟩⟩
          rw [unread, left, arriving]
          rfl
        | some chunk =>
          obtain ⟨split, broken, sent, outcomes, short, ends⟩ := Socket.read_some answered
          refine ⟨⟨rfl, broken, sent, outcomes⟩, ?_, short,
            fun _ => ⟨?_, Nat.eq_zero_of_not_pos buffered⟩, fun none_ => ?_⟩
          · simp only [unread, left, List.nil_append, split, List.length_append]
          · simp only [unread, left, List.nil_append, split]
          · obtain ⟨arriving, intact⟩ := ends none_ room
            exact ⟨by rw [unread, left, arriving]; rfl, intact⟩

/-! ## Pieces -/

/-- Bytes that lie or arrive together, cut into full buffers. -/
def cut (data : Bytes) : List Bytes := chop (List.take (MAXLINE - 1)) data

/-- The pieces in which reads of a full buffer answer the unread bytes: what is left in the line
buffer, and then the segments, each cut into full buffers. -/
def CommClient.pieces (c : CommClient) : List Bytes :=
  cut c.line.left ++ c.socket.pending.flatMap fun segment => cut segment.bytes

/-- A full buffer is taken from the front. -/
theorem take_chops : Chops (List.take (MAXLINE - 1) : Bytes → Bytes) where
  append_drop data := by
    rw [List.length_take]
    rcases Nat.le_total (MAXLINE - 1) data.length with more | less
    · rw [Nat.min_eq_left more, List.take_append_drop]
    · rw [Nat.min_eq_right less, List.drop_length, List.append_nil, List.take_of_length_le less]
  ne_nil data some_ := by
    rw [Ne, List.take_eq_nil_iff, not_or]
    exact ⟨by decide, some_⟩

/-- The first piece of some bytes is a full buffer of them. -/
theorem cut_cons {data : Bytes} (some_ : data ≠ []) :
    cut data = data.take (MAXLINE - 1) :: cut (data.drop (MAXLINE - 1)) := by
  rw [cut, take_chops.chop_cons some_, cut, List.length_take]
  rcases Nat.le_total (MAXLINE - 1) data.length with more | less
  · rw [Nat.min_eq_left more]
  · rw [Nat.min_eq_right less, List.drop_length, List.drop_of_length_le less]

/-- The pieces are cut from the unread bytes. -/
theorem CommClient.flatten_pieces (c : CommClient) : c.pieces.flatten = c.unread := by
  have segments : (c.socket.pending.flatMap fun segment => cut segment.bytes).flatten =
      c.socket.pending.flatMap Segment.bytes := by
    induction c.socket.pending with
    | nil => rfl
    | cons segment others ih =>
      rw [List.flatMap_cons, List.flatten_append, cut, take_chops.flatten_chop, ih,
        List.flatMap_cons]
  rw [pieces, List.flatten_append, segments, cut, take_chops.flatten_chop, unread]

/-- What is unread begins with its first piece. -/
theorem CommClient.unread_cons {c c' : CommClient} {piece : Bytes}
    (arriving : c.pieces = piece :: c'.pieces) : c.unread = piece ++ c'.unread := by
  rw [← c.flatten_pieces, ← c'.flatten_pieces, arriving, List.flatten_cons]

/-- What a read of a full buffer does to the pieces. -/
theorem CommClient.readx_pieces {c : CommClient} (open_ : c.isOpen = true)
    (short : c.line.counter ≤ MAXLINE - 1) :
    match c.pieces with
    | [] => c.readx (MAXLINE - 1) = (if c.socket.broken then none else some [], c)
    | piece :: others => ∃ c', c.readx (MAXLINE - 1) = (some piece, c') ∧ c.Kept c' ∧
        c'.pieces = others ∧ c'.line.counter = 0 ∧ piece ≠ [] ∧ piece.length ≤ MAXLINE - 1 := by
  have room : 0 < MAXLINE - 1 := by decide
  have cutNil : cut [] = [] := rfl
  unfold readx
  by_cases buffered : 0 < c.line.counter
  · have length := c.line.length_left
    have some_ : c.line.left ≠ [] := by
      rw [← List.length_pos_iff, length]
      exact buffered
    have all : c.line.left.drop (MAXLINE - 1) = [] := List.drop_of_length_le (length ▸ short)
    have arrive : c.pieces = c.line.left.take (MAXLINE - 1) ::
        c.socket.pending.flatMap fun segment => cut segment.bytes := by
      rw [pieces, cut_cons some_, all]
      rfl
    rw [arrive, if_pos buffered]
    refine ⟨_, rfl, ⟨rfl, rfl, rfl, rfl⟩, ?_, Nat.sub_eq_zero_of_le short, ?_,
      List.length_take_le ..⟩
    · rw [pieces, LineBuffer.left_count short, cutNil]
      rfl
    · rw [Ne, List.take_eq_nil_iff, not_or]
      exact ⟨by omega, some_⟩
  · have left : c.line.left = [] := by
      rw [LineBuffer.left, Nat.eq_zero_of_not_pos buffered, List.take_zero]
    have notClosed : ¬ c.isOpen = false := by rw [open_]; decide
    rw [if_neg buffered, if_pos room, if_neg notClosed, pieces, left, cutNil, List.nil_append]
    unfold Socket.read
    cases arriving : c.socket.pending with
    | nil => rfl
    | cons segment others =>
      have some_ : segment.bytes ≠ [] := List.cons_ne_nil segment.first segment.rest
      have restored : (consSegment (segment.bytes.drop (MAXLINE - 1)) others).flatMap
          (fun segment => cut segment.bytes) =
            cut (segment.bytes.drop (MAXLINE - 1)) ++ others.flatMap fun segment =>
              cut segment.bytes := by
        cases segment.bytes.drop (MAXLINE - 1) <;> rfl
      rw [List.flatMap_cons, cut_cons some_, List.cons_append]
      refine ⟨_, rfl, ⟨rfl, rfl, rfl, rfl⟩, ?_, Nat.eq_zero_of_not_pos buffered, ?_,
        List.length_take_le ..⟩
      · rw [pieces, left, cutNil, List.nil_append, restored]
      · rw [Ne, List.take_eq_nil_iff, not_or]
        exact ⟨by omega, some_⟩

/-- A write to an open connection that delivers everything. -/
theorem CommClient.writex_delivers {c : CommClient} (open_ : c.isOpen = true)
    (delivers : ∀ outcome ∈ c.socket.outcomes, outcome = none) (data : Bytes) :
    ∃ c', c.writex data = (some data.length, c') ∧ c'.isOpen = true ∧
      (∀ outcome ∈ c'.socket.outcomes, outcome = none) ∧
        c'.socket.sent = c.socket.sent ++ data ∧ c'.socket.broken = c.socket.broken ∧
          c'.socket.pending = c.socket.pending ∧ c'.line = c.line := by
  unfold writex
  by_cases empty : data = []
  · exact ⟨c, by rw [if_pos empty, empty]; rfl, open_, delivers, by rw [empty, List.append_nil],
      rfl, rfl, rfl⟩
  · have notClosed : ¬ c.isOpen = false := by rw [open_]; decide
    rw [if_neg empty, if_neg notClosed]
    cases coming : c.socket.outcomes with
    | nil =>
      exact ⟨_, rfl, open_, delivers, rfl, rfl, rfl, rfl⟩
    | cons outcome later =>
      have whole : outcome = none := delivers outcome (coming ▸ List.mem_cons_self)
      subst whole
      exact ⟨_, rfl, open_, fun outcome inside =>
        delivers outcome (coming ▸ List.mem_cons_of_mem none inside), rfl, rfl, rfl, rfl⟩

end TinyTools.Proxy
