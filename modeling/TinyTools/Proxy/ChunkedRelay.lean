import TinyTools.Proxy.HeaderLines

/-!
# The relay of a chunked body

The body loop of a response that is taken for chunked reads pieces while some of the length that was
read remains, and lines behind that; it is left behind the first read that leaves an empty line in
`buf`. No length is read unless a line is filed as one. So the whole of a chunked body is relayed
when no such line stands in the header and no part of the body before the last is an empty line.
-/

namespace TinyTools.Proxy

open TinyTools.Lib

/-! ## Reads -/

/-- The reads of the loop, each with the string that it leaves in `buf`: pieces while some of the
size remains, and the lines of the rest. -/
def reads (size : UInt64) (buf : Bytes) : List Bytes → List (Bytes × Bytes)
  | [] => []
  | piece :: others =>
    if size > 0 then
      (piece, cString (overlay buf piece)) ::
        reads (size - UInt64.ofNat piece.length) (overlay buf piece) others
    else (splitLines MAXLINE (piece :: others).flatten).map fun line => (line, cString line)

/-- The first of some reads that leaves an empty line in `buf` ends at a byte of the stream. -/
def EmptyAt (reads : List (Bytes × Bytes)) (length : ℕ) : Prop :=
  ∃ front read back, reads = front ++ read :: back ∧ read.2 = crlf ∧
    (∀ other ∈ front, other.2 ≠ crlf) ∧ ((front ++ [read]).flatMap Prod.fst).length = length

/-- The size is used up at the end of a piece. -/
def UsedUp (size : UInt64) (pieces : List Bytes) : Prop :=
  ∃ n, UInt64.ofNat (pieces.take n).flatten.length = size

/-- The loop of a response that is taken for chunked is left at a byte of the server's stream: where
the first read ends that leaves an empty line in `buf`, or, if there is none and the size is not
used up, where the stream ends without an error. -/
def LeftAt (size : UInt64) (buf : Bytes) (c : CommClient) (length : ℕ) : Prop :=
  EmptyAt (reads size buf c.pieces) length ∨
    ¬ UsedUp size c.pieces ∧ (∀ read ∈ reads size buf c.pieces, read.2 ≠ crlf) ∧
      length = c.unread.length ∧ c.socket.broken = false

/-- Without a size the reads are lines. -/
theorem reads_zero (buf : Bytes) (pieces : List Bytes) :
    reads 0 buf pieces =
      (splitLines MAXLINE pieces.flatten).map fun line => (line, cString line) := by
  cases pieces with
  | nil => rfl
  | cons piece others => exact if_neg (by decide)

/-- Nothing is empty among no reads. -/
theorem not_emptyAt_nil (length : ℕ) : ¬ EmptyAt [] length := by
  rintro ⟨front, read, back, shape, -⟩
  cases front <;> cases shape

/-- The first read leaves an empty line, or a later one does. -/
theorem emptyAt_cons (read : Bytes × Bytes) (others : List (Bytes × Bytes)) (length : ℕ) :
    EmptyAt (read :: others) length ↔
      if read.2 = crlf then length = read.1.length
      else read.1.length ≤ length ∧ EmptyAt others (length - read.1.length) := by
  constructor
  · rintro ⟨front, last, back, shape, empty, before, total⟩
    cases front with
    | nil =>
      obtain ⟨rfl, rfl⟩ := List.cons.inj shape
      rw [if_pos empty, ← total]
      simp
    | cons first front =>
      obtain ⟨rfl, rfl⟩ := List.cons.inj shape
      rw [if_neg (before read List.mem_cons_self)]
      rw [List.cons_append, List.flatMap_cons, List.length_append] at total
      refine ⟨by omega, front, last, back, rfl, empty, ?_, by omega⟩
      intro other inside
      exact before other (.tail _ inside)
  · intro either
    by_cases empty : read.2 = crlf
    · rw [if_pos empty] at either
      refine ⟨[], read, others, rfl, empty, fun other inside => absurd inside List.not_mem_nil, ?_⟩
      rw [either]
      simp
    · rw [if_neg empty] at either
      obtain ⟨fits, front, last, back, rfl, ends, before, total⟩ := either
      refine ⟨read :: front, last, back, rfl, ends, List.forall_mem_cons.mpr ⟨empty, before⟩, ?_⟩
      rw [List.cons_append, List.flatMap_cons, List.length_append, total]
      omega

/-- A size is used up behind a piece when what the piece leaves of it is. -/
theorem usedUp_cons {size : UInt64} (remain : size > 0) (piece : Bytes) (others : List Bytes) :
    UsedUp size (piece :: others) ↔ UsedUp (size - UInt64.ofNat piece.length) others := by
  constructor
  · rintro ⟨n, total⟩
    cases n with
    | zero => exact absurd total.symm (UInt64.pos_iff_ne_zero.mp remain)
    | succ n =>
      rw [List.take_succ_cons, List.flatten_cons, List.length_append, UInt64.ofNat_add] at total
      exact ⟨n, by rw [← total, UInt64.add_comm, UInt64.add_sub_cancel]⟩
  · rintro ⟨n, total⟩
    refine ⟨n + 1, ?_⟩
    rw [List.take_succ_cons, List.flatten_cons, List.length_append, UInt64.ofNat_add, total,
      UInt64.add_comm, UInt64.sub_add_cancel]

/-! ## Passing a number of bytes -/

/-- The loop passes a number of bytes of the server's stream on, and the others are still to be
read. -/
def Relay.Passes (h : HttpHeader) (rounds : ℕ) (r : Relay) (length : ℕ) : Prop :=
  ∃ r', relayLoop h rounds r = .ok r' ∧
    r'.session.client.socket.sent =
      r.session.client.socket.sent ++ r.session.server.unread.take length ∧
    r'.session.server.unread = r.session.server.unread.drop length

/-- Passing bytes on as the last round concerns the client. -/
theorem Relay.pass_leave_server {h : HttpHeader} {r r' : Relay} {numBytes : ℕ}
    (left : r.pass h numBytes = .leave r') : r'.session.server = r.session.server := by
  unfold pass at left
  dsimp only at left
  split at left
  · cases left
  · split at left
    · rw [← Turn.leave.inj left]
    · cases left

/-- No more is unread behind the last round than in front of it. -/
theorem Relay.step_leave_le {h : HttpHeader} {r r' : Relay} (left : r.step h = .leave r') :
    r'.session.server.unread.length ≤ r.session.server.unread.length := by
  obtain ⟨-, taken⟩ := r.session.server.readx_spec (show 0 < MAXLINE - 1 by decide)
  obtain ⟨-, split_, -⟩ := r.session.server.lineLoop_spec (MAXLINE - 1)
  have line := congrArg List.length split_
  rw [List.length_append] at line
  unfold step at left
  split_ifs at left
  · split at left
    · cases left
    · rename_i server read
      rw [read] at taken
      rw [← Turn.leave.inj left]
      have all := taken.1
      dsimp only at all ⊢
      omega
    · rename_i chunk server some_ read
      rw [read] at taken
      rw [pass_leave_server left]
      have all := taken.1
      dsimp only at all ⊢
      omega
  · dsimp only at left
    split_ifs at left
    rw [pass_leave_server left]
    change (r.session.server.lineLoop (MAXLINE - 1)).client.unread.length ≤ _
    omega
  · rw [← Turn.leave.inj left]

/-- No more is unread behind the loop than in front of it. -/
theorem relayLoop_unread_le {h : HttpHeader} {rounds : ℕ} {r r' : Relay}
    (ran : relayLoop h rounds r = .ok r') :
    r'.session.server.unread.length ≤ r.session.server.unread.length := by
  induction rounds generalizing r with
  | zero => rw [← Except.ok.inj ran]
  | succ rounds ih =>
    unfold relayLoop at ran
    cases round : r.step h with
    | closed s =>
      rw [round] at ran
      cases ran
    | leave r₁ =>
      rw [round] at ran
      rw [← Except.ok.inj ran]
      exact Relay.step_leave_le round
    | more r₁ =>
      rw [round] at ran
      exact (ih ran).trans (Relay.step_shorter round).le

section

variable {h : HttpHeader} {rounds length : ℕ} {r r₁ : Relay} {part : Bytes}

/-- A loop that is left behind a round has passed that round's bytes on. -/
theorem Relay.passes_leave (round : r.step h = .leave r₁)
    (unread : r.session.server.unread = part ++ r₁.session.server.unread)
    (sent : r₁.session.client.socket.sent = r.session.client.socket.sent ++ part)
    (arrives : length ≤ r.session.server.unread.length) :
    r.Passes h (rounds + 1) length ↔ length = part.length := by
  have ran : relayLoop h (rounds + 1) r = .ok r₁ := by rw [relayLoop, round]
  unfold Passes
  rw [ran]
  constructor
  · rintro ⟨r', same, -, left⟩
    rw [← Except.ok.inj same] at left
    have lengths := congrArg List.length left
    have whole := congrArg List.length unread
    rw [List.length_drop] at lengths
    rw [List.length_append] at whole
    omega
  · rintro rfl
    refine ⟨r₁, rfl, ?_, ?_⟩
    · rw [sent, unread, List.take_left]
    · rw [unread, List.drop_left]

/-- A loop that goes on passes that round's bytes on and then others. -/
theorem Relay.passes_more (round : r.step h = .more r₁)
    (unread : r.session.server.unread = part ++ r₁.session.server.unread)
    (sent : r₁.session.client.socket.sent = r.session.client.socket.sent ++ part)
    (arrives : length ≤ r.session.server.unread.length) :
    r.Passes h (rounds + 1) length ↔
      part.length ≤ length ∧ r₁.Passes h rounds (length - part.length) := by
  have ran : relayLoop h (rounds + 1) r = relayLoop h rounds r₁ := by rw [relayLoop, round]
  have whole := congrArg List.length unread
  rw [List.length_append] at whole
  unfold Passes
  rw [ran, unread]
  constructor
  · rintro ⟨r', ran', sent', left⟩
    have less := relayLoop_unread_le ran'
    have lengths := congrArg List.length left
    rw [List.length_drop, List.length_append] at lengths
    have fits : part.length ≤ length := by omega
    refine ⟨fits, r', ran', ?_, ?_⟩
    · rw [sent', sent, List.take_append, List.take_of_length_le fits, List.append_assoc]
    · rw [left, List.drop_append, List.drop_of_length_le fits, List.nil_append]
  · rintro ⟨fits, r', ran', sent', left⟩
    refine ⟨r', ran', ?_, ?_⟩
    · rw [sent', sent, List.take_append, List.take_of_length_le fits, List.append_assoc]
    · rw [left, List.drop_append, List.drop_of_length_le fits, List.nil_append]

/-- A loop that ends the exchange passes nothing on in this sense. -/
theorem Relay.not_passes_closed {s : Session} (round : r.step h = .closed s) :
    ¬ r.Passes h (rounds + 1) length := by
  rintro ⟨r', ran, -⟩
  rw [relayLoop, round] at ran
  cases ran

end

/-! ## Rounds that read lines -/

/-- Where no line is answered there is no newline. -/
theorem newline_not_mem_unread {c : CommClient} (open_ : c.isOpen = true)
    (ended : (c.readlinex MAXLINE).numBytes ≤ 0) : 10 ∉ c.unread := by
  intro inside
  have complete : (takeLine (MAXLINE - 1) c.unread).length = MAXLINE - 1 ∨
      10 ∈ takeLine (MAXLINE - 1) c.unread := by
    rcases ends_takeLine (MAXLINE - 1) c.unread with (newline | full) | whole
    · exact Or.inr (List.mem_of_getLast? newline)
    · exact Or.inl full
    · exact Or.inr (whole.symm ▸ inside)
  obtain ⟨same, intact⟩ := c.lineLoop_complete (MAXLINE - 1) open_ complete
  have some_ := List.length_pos_iff.mpr (takeLine_ne_nil (List.ne_nil_of_mem inside))
  unfold LineRead.numBytes CommClient.readlinex at ended
  rw [intact, same, if_neg Bool.false_ne_true] at ended
  omega

/-- No part of a text without a newline is read as an empty line. -/
theorem ne_crlf_of_mem {text line : Bytes} (solid : 10 ∉ text)
    (part : line ∈ splitLines MAXLINE text) : cString line ≠ crlf := by
  intro empty
  have newline : (10 : UInt8) ∈ cString line := by
    rw [empty]
    decide
  apply solid
  rw [← (takeLine_chops_of (by decide : 2 ≤ MAXLINE)).flatten_chop text]
  exact List.mem_flatten.mpr ⟨line, part, (List.takeWhile_prefix _).subset newline⟩

/-- Passing bytes on uses nothing up where there is nothing left. -/
theorem Relay.step_used {h : HttpHeader} {r r' : Relay} (used : r.serverBodySize = 0)
    (goesOn : r.step h = .more r') : r'.serverBodySize = 0 := by
  have notMore : ¬ r.serverBodySize > 0 := by rw [used]; decide
  unfold step at goesOn
  rw [if_neg notMore] at goesOn
  split_ifs at goesOn
  dsimp only at goesOn
  split_ifs at goesOn
  unfold pass at goesOn
  dsimp only at goesOn
  split at goesOn
  · cases goesOn
  · split at goesOn
    · cases goesOn
    · rw [← Turn.more.inj goesOn]
      exact used

/-- A size that is used up from the start never wraps. -/
theorem Relay.neverWraps_used {h : HttpHeader} {r : Relay} (used : r.serverBodySize = 0) :
    r.NeverWraps h := by
  intro r₁ reached remain
  have zero : r₁.serverBodySize = 0 := by
    clear remain
    induction reached with
    | refl => exact used
    | more round later ih => exact ih (step_used used round)
  rw [zero] at remain
  exact absurd remain (by decide)

/-- Where nothing arrives the loop is left unless the stream breaks off, or a line is read. -/
theorem Relay.passes_ended_iff {h : HttpHeader} {rounds : ℕ} {r : Relay} (ready : r.Ready)
    (remain : r.serverBodySize ≠ 0) (arriving : r.session.server.pieces = []) :
    r.Passes h (rounds + 1) 0 ↔ LeftAt r.serverBodySize r.session.buf r.session.server 0 := by
  have flat := r.session.server.flatten_pieces
  have notUsed : ¬ UsedUp r.serverBodySize [] := by
    rintro ⟨n, total⟩
    rw [List.take_nil] at total
    exact remain total.symm
  have ended := step_ended h ready (UInt64.pos_iff_ne_zero.mpr remain) arriving
  rw [arriving] at flat
  unfold LeftAt
  rw [arriving, reads, or_iff_right (not_emptyAt_nil 0), ← flat]
  cases broken : r.session.server.socket.broken with
  | true =>
    rw [broken, if_pos rfl] at ended
    exact iff_of_false (not_passes_closed ended) fun other => Bool.noConfusion other.2.2.2
  | false =>
    rw [broken, if_neg Bool.false_ne_true] at ended
    have unread : r.session.server.unread = [] ++ r.session.server.unread := rfl
    have sent := (List.append_nil r.session.client.socket.sent).symm
    refine iff_of_true ((passes_leave ended unread sent (Nat.zero_le _)).mpr rfl)
      ⟨notUsed, ?_, rfl, rfl⟩
    intro read inside
    exact absurd inside List.not_mem_nil

section

variable {h : HttpHeader} (chunked : h.isChunked = true)
include chunked

/-- A round behind the size passes a line on, and is the last one at an empty line. -/
theorem Relay.step_line {r : Relay} (ready : r.Ready) (used : r.serverBodySize = 0)
    (some_ : ¬ (r.session.server.readlinex MAXLINE).numBytes ≤ 0) :
    ∃ r' line, r.step h = (if cString line = crlf then .leave r' else .more r') ∧ r'.Ready ∧
      r'.serverBodySize = 0 ∧ r.session.server.unread = line ++ r'.session.server.unread ∧
        splitLines MAXLINE r.session.server.unread =
          line :: splitLines MAXLINE r'.session.server.unread ∧
            r'.session.client.socket.sent = r.session.client.socket.sent ++ line := by
  have notMore : ¬ r.serverBodySize > 0 := by rw [used]; decide
  obtain ⟨kept, split, short⟩ := r.session.server.lineLoop_spec (MAXLINE - 1)
  let read := r.session.server.readlinex MAXLINE
  let r₁ : Relay := { r with session := { r.session with
    server := read.client
    buf := read.store r.session.buf } }
  have ready₁ : r₁.Ready := ⟨kept.isOpen.trans ready.server,
    Nat.le_of_lt_succ (short ready.server (by decide)), ready.client, ready.delivers⟩
  have content : r₁.session.buf =
      read.bytes ++ 0 :: r.session.buf.drop (read.bytes ++ [0]).length := by
    show overlay r.session.buf (if read.failed then read.bytes else read.bytes ++ [0]) = _
    rw [LineRead.whole some_, if_neg Bool.false_ne_true, overlay, List.append_assoc]
    rfl
  have stored : cString r₁.session.buf = cString read.bytes := by
    rw [content, cString_line]
  obtain ⟨client, open_, delivers, sent, passed⟩ :=
    pass_delivers h ready₁.client ready₁.delivers content
  rw [if_neg notMore, stored] at passed
  let r₂ : Relay :=
    ⟨{ r₁.session with client := client }, r₁.bodyWith h read.bytes, r.serverBodySize⟩
  refine ⟨r₂, read.bytes, ?_, ⟨ready₁.server, ready₁.short, open_, delivers⟩, used, split,
    CommClient.readlinex_first some_, sent⟩
  unfold step
  rw [if_neg notMore, if_pos chunked]
  dsimp only
  rw [if_neg some_]
  apply passed.trans
  by_cases empty : cString read.bytes = crlf
  · rw [if_pos ⟨chunked, empty⟩, if_pos empty]
  · rw [if_neg fun both => empty both.2, if_neg empty]

/-- Behind the size the loop passes on what stands up to the first empty line. -/
theorem Relay.passes_lines_iff {rounds length : ℕ} {r : Relay} (ready : r.Ready)
    (used : r.serverBodySize = 0) (enough : r.session.server.unread.length < rounds)
    (arrives : length ≤ r.session.server.unread.length) :
    r.Passes h rounds length ↔
      EmptyAt ((splitLines MAXLINE r.session.server.unread).map fun line => (line, cString line))
        length := by
  induction rounds generalizing r length with
  | zero => exact absurd enough (Nat.not_lt_zero _)
  | succ rounds ih =>
    by_cases some_ : (r.session.server.readlinex MAXLINE).numBytes ≤ 0
    · have notMore : ¬ r.serverBodySize > 0 := by rw [used]; decide
      have closed : ∃ s, r.step h = .closed s := by
        unfold step
        rw [if_neg notMore, if_pos chunked]
        dsimp only
        rw [if_pos some_]
        exact ⟨_, rfl⟩
      obtain ⟨s, closed⟩ := closed
      refine iff_of_false (not_passes_closed closed) ?_
      rintro ⟨front, read, back, shape, empty, -⟩
      have inside : read ∈ (splitLines MAXLINE r.session.server.unread).map fun line =>
          (line, cString line) := by
        rw [shape]
        exact List.mem_append_right _ List.mem_cons_self
      obtain ⟨line, part, rfl⟩ := List.mem_map.mp inside
      exact ne_crlf_of_mem (newline_not_mem_unread ready.server some_) part empty
    · obtain ⟨r', line, round, ready', used', unread, cut, sent⟩ :=
        step_line chunked ready used some_
      rw [cut, List.map_cons, emptyAt_cons]
      by_cases empty : cString line = crlf
      · rw [if_pos empty] at round ⊢
        exact passes_leave round unread sent arrives
      · rw [if_neg empty] at round ⊢
        have lengths := congrArg List.length unread
        rw [List.length_append] at lengths
        rw [passes_more round unread sent arrives]
        have positive := step_shorter round
        apply and_congr_right
        intro fits
        exact ih ready' used' (by omega) (by omega)

/-! ## Pieces and lines -/

/-- The same for a size that is used up from the start. -/
theorem Relay.passes_used_iff {rounds length : ℕ} {r : Relay} (ready : r.Ready)
    (used : r.serverBodySize = 0) (enough : r.session.server.unread.length < rounds)
    (arrives : length ≤ r.session.server.unread.length) :
    r.Passes h rounds length ↔ LeftAt r.serverBodySize r.session.buf r.session.server length := by
  have usedUp : UsedUp 0 r.session.server.pieces := ⟨0, rfl⟩
  rw [passes_lines_iff chunked ready used enough arrives, LeftAt, used, reads_zero,
    r.session.server.flatten_pieces]
  exact (or_iff_left fun other => other.1 usedUp).symm

/-- The loop of a response that is taken for chunked passes on what stands up to the place where it
is left. -/
theorem Relay.passes_iff {pieces : List Bytes} {rounds length : ℕ} {r : Relay} (ready : r.Ready)
    (arriving : r.session.server.pieces = pieces)
    (enough : r.session.server.unread.length < rounds)
    (arrives : length ≤ r.session.server.unread.length) :
    r.Passes h rounds length ↔ LeftAt r.serverBodySize r.session.buf r.session.server length := by
  induction pieces generalizing rounds r length with
  | nil =>
    have flat := r.session.server.flatten_pieces
    by_cases used : r.serverBodySize = 0
    · exact passes_used_iff chunked ready used enough arrives
    rw [arriving] at flat
    rw [← flat] at arrives
    obtain rfl : length = 0 := Nat.le_zero.mp arrives
    obtain ⟨rounds, rfl⟩ : ∃ n, rounds = n + 1 := ⟨rounds - 1, by omega⟩
    exact passes_ended_iff ready used arriving
  | cons piece others ih =>
    by_cases used : r.serverBodySize = 0
    · exact passes_used_iff chunked ready used enough arrives
    have remain := UInt64.pos_iff_ne_zero.mpr used
    obtain ⟨rounds, rfl⟩ : ∃ n, rounds = n + 1 := ⟨rounds - 1, by omega⟩
    obtain ⟨r', round, ready', rest, -, broken, size, sent, stored, some_, -⟩ :=
      step_piece (h := h) ready remain arriving
    have unread : r.session.server.unread = piece ++ r'.session.server.unread :=
      CommClient.unread_cons (rest ▸ arriving)
    have lengths := congrArg List.length unread
    rw [List.length_append] at lengths
    have positive := List.length_pos_iff.mpr some_
    unfold LeftAt
    rw [arriving, reads, if_pos remain, emptyAt_cons, usedUp_cons remain, List.forall_mem_cons,
      ← size, ← stored]
    by_cases empty : cString r'.session.buf = crlf
    · rw [if_pos ⟨chunked, empty⟩] at round
      rw [if_pos empty, passes_leave round unread sent arrives]
      exact (or_iff_left fun other => other.2.1.1 empty).symm
    · rw [if_neg fun both => empty both.2] at round
      rw [if_neg empty, passes_more round unread sent arrives]
      have later (fits : piece.length ≤ length) : r'.Passes h rounds (length - piece.length) ↔ _ :=
        ih ready' rest (by omega) (by omega)
      unfold LeftAt at later
      rw [rest, broken] at later
      constructor
      · rintro ⟨fits, passes⟩
        rcases (later fits).mp passes with ends | ⟨notUsed, none_, all, intact⟩
        · exact Or.inl ⟨fits, ends⟩
        · exact Or.inr ⟨notUsed, ⟨empty, none_⟩, by omega, intact⟩
      · rintro (⟨fits, ends⟩ | ⟨notUsed, ⟨-, none_⟩, all, intact⟩)
        · exact ⟨fits, (later fits).mpr (Or.inl ends)⟩
        · have fits : piece.length ≤ length := by omega
          exact ⟨fits, (later fits).mpr (Or.inr ⟨notUsed, none_, by omega, intact⟩)⟩

/-- When a number of bytes is passed on, the remaining size never wraps exactly when it is at least
that number or used up at the end of a piece. -/
theorem Relay.neverWraps_passes_iff {pieces : List Bytes} {rounds length : ℕ} {r : Relay}
    (ready : r.Ready) (arriving : r.session.server.pieces = pieces)
    (arrives : length ≤ r.session.server.unread.length) (passes : r.Passes h rounds length)
    (enough : r.session.server.unread.length < rounds) : r.NeverWraps h ↔
      length ≤ r.serverBodySize.toNat ∨ EndsAt pieces r.serverBodySize.toNat := by
  induction pieces generalizing rounds r length with
  | nil =>
    by_cases used : r.serverBodySize = 0
    · refine iff_of_true (neverWraps_used used) (Or.inr ?_)
      rw [used]
      exact endsAt_zero _
    · have none_ : length = 0 := by
        rw [← r.session.server.flatten_pieces, arriving] at arrives
        exact Nat.le_zero.mp arrives
      have remain := UInt64.pos_iff_ne_zero.mpr used
      refine iff_of_true (neverWraps_last (fun r' round => ?_) fun _ _ _ read =>
        readx_nil ready arriving read) (Or.inl (none_ ▸ Nat.zero_le _))
      rw [step_ended h ready remain arriving] at round
      split at round <;> cases round
  | cons piece others ih =>
    by_cases used : r.serverBodySize = 0
    · refine iff_of_true (neverWraps_used used) (Or.inr ?_)
      rw [used]
      exact endsAt_zero _
    have remain := UInt64.pos_iff_ne_zero.mpr used
    have positive : r.serverBodySize.toNat ≠ 0 := Nat.ne_of_gt (UInt64.lt_iff_toNat_lt.mp remain)
    obtain ⟨rounds, rfl⟩ : ∃ n, rounds = n + 1 := ⟨rounds - 1, by omega⟩
    obtain ⟨r', round, ready', rest, read, -, size, sent, -, some_, bound⟩ :=
      step_piece (h := h) ready remain arriving
    have unread : r.session.server.unread = piece ++ r'.session.server.unread :=
      CommClient.unread_cons (rest ▸ arriving)
    have lengths := congrArg List.length unread
    rw [List.length_append] at lengths
    have shorter := List.length_pos_iff.mpr some_
    rw [endsAt_cons positive]
    by_cases empty : cString r'.session.buf = crlf
    · rw [if_pos ⟨chunked, empty⟩] at round
      have all := (passes_leave round unread sent arrives).mp passes
      rw [neverWraps_leave remain round read, all]
      exact ⟨Or.inl, fun either => either.elim id And.left⟩
    · rw [if_neg fun both => empty both.2] at round
      obtain ⟨fits, passes'⟩ := (passes_more round unread sent arrives).mp passes
      have later : r'.NeverWraps h ↔ _ := ih ready' rest (by omega) passes' (by omega)
      rw [neverWraps_more remain round read, later, size]
      constructor
      · rintro ⟨below, later⟩
        rw [remaining_sub bound below] at later
        rcases later with less | ends
        · exact Or.inl (by omega)
        · exact Or.inr ⟨below, ends⟩
      · rintro (less | ⟨below, ends⟩)
        · have below : piece.length ≤ r.serverBodySize.toNat := by omega
          exact ⟨below, Or.inl (by rw [remaining_sub bound below]; omega)⟩
        · exact ⟨below, Or.inr (by rw [remaining_sub bound below]; exact ends)⟩

end

/-! ## Chunked responses -/

/-- The first empty one of some lines is known to be the last of those in front when no other one of
them is empty. -/
theorem emptyAt_lines_iff {front : List Bytes} (others : List Bytes)
    (plain : ∀ line ∈ front, cString line = crlf ↔ line = crlf) :
    EmptyAt ((front ++ crlf :: others).map fun line => (line, cString line))
      (front.flatten.length + 2) ↔ crlf ∉ front := by
  have last : cString crlf = crlf := by decide
  induction front with
  | nil =>
    rw [List.nil_append, List.map_cons, emptyAt_cons, if_pos last]
    exact iff_of_true rfl List.not_mem_nil
  | cons line front ih =>
    have first := plain line List.mem_cons_self
    have later := ih fun other inside => plain other (.tail _ inside)
    rw [List.cons_append, List.map_cons, emptyAt_cons, List.flatten_cons, List.length_append,
      List.mem_cons, not_or]
    by_cases empty : line = crlf
    · have two : crlf.length = 2 := rfl
      rw [if_pos (first.mpr empty), empty]
      refine iff_of_false ?_ fun both => both.1 rfl
      dsimp only
      omega
    · rw [if_neg fun same => empty (first.mp same)]
      dsimp only
      have less : line.length + front.flatten.length + 2 - line.length =
          front.flatten.length + 2 := by omega
      rw [less]
      constructor
      · rintro ⟨-, ends⟩
        exact ⟨Ne.symm empty, later.mp ends⟩
      · rintro ⟨-, none_⟩
        exact ⟨by omega, later.mpr none_⟩

/-- The whole of a chunked body is passed on, and what follows it is still to be read. -/
def ChunksRelayed (body : ChunkedBody) (rest : Bytes) (h : HttpHeader) (s : Session) : Prop :=
  ∃ r, relayBody h s = .ok r ∧
    r.session.client.socket.sent = s.client.socket.sent ++ body.encode ∧
      r.session.server.unread = rest

/-- A response whose header announces a chunked body and no length, with the body behind it, and a
client that is connected and takes everything. -/
structure ChunkedResponse (headerLines : List Bytes) (body : ChunkedBody) (rest : Bytes)
    (h : HttpHeader) (s : Session) : Prop where
  /-- What the header says. -/
  announces : AnnouncesChunks headerLines
  /-- The header was read. -/
  behind : BehindLines headerLines s.server h
  /-- The body is still to be read. -/
  arriving : s.server.unread = body.encode ++ rest
  /-- The client is connected. -/
  connected : s.client.isOpen = true
  /-- Writes to it deliver everything. -/
  delivers : ∀ outcome ∈ s.client.socket.outcomes, outcome = none

/-- Without a length the loop is left behind the body when no line before its last is empty. -/
theorem ChunkedBody.leftAt_zero_iff (body : ChunkedBody) {rest : Bytes} (buf : Bytes)
    {c : CommClient} (arriving : c.unread = body.encode ++ rest) :
    LeftAt 0 buf c body.encode.length ↔ crlf ∉ (lines body.encode).dropLast := by
  have usedUp : UsedUp 0 c.pieces := ⟨0, rfl⟩
  have whole : EndsLine body.encode := by
    intro byte inside
    rw [ChunkedBody.encode, crlf, List.getLast?_append] at inside
    exact (Option.some.inj inside).symm
  have cut : splitLines MAXLINE (body.encode ++ rest) = lines body.front ++ crlf :: lines rest := by
    change lines (body.encode ++ rest) = _
    rw [lines_append whole, body.lines_encode, List.append_assoc]
    rfl
  have flat : (lines body.front).flatten = body.front := takeLine_chops.flatten_chop body.front
  have total : body.encode.length = (lines body.front).flatten.length + 2 := by
    rw [flat, ChunkedBody.encode, List.length_append]
    rfl
  rw [LeftAt, or_iff_left fun other => other.1 usedUp, reads_zero, c.flatten_pieces, arriving, cut,
    total, body.lines_encode, List.dropLast_concat]
  exact emptyAt_lines_iff (lines rest) fun line inside => cString_eq_crlf_iff inside

/-- A chunked body is relayed exactly when no number is taken for its length and no line of it
before the last is empty, or when the number taken for its length happens to make the loop stop
where the body ends. -/
theorem chunksRelayed_iff {headerLines : List Bytes} {body : ChunkedBody} {rest : Bytes}
    {h : HttpHeader} {s : Session} (response : ChunkedResponse headerLines body rest h s) :
    ChunksRelayed body rest h s ↔
      readLength headerLines = 0 ∧ crlf ∉ (lines body.encode).dropLast ∨
        readLength headerLines ≠ 0 ∧
          LeftAt (readLength headerLines) s.buf s.server body.encode.length := by
  have chunked : h.isChunked = true :=
    response.behind.isChunked.trans response.announces.readChunked_eq
  have size : (Relay.start h s).serverBodySize = readLength headerLines :=
    response.behind.getBodySize
  obtain ⟨open_, short⟩ := response.behind.spec.2.ready
  have ready : (Relay.start h s).Ready := ⟨open_, short, response.connected, response.delivers⟩
  have arrives : body.encode.length ≤ s.server.unread.length := by
    rw [response.arriving, List.length_append]
    exact Nat.le_add_right _ _
  have passes : ChunksRelayed body rest h s ↔
      (Relay.start h s).Passes h (s.server.unread.length + 1) body.encode.length := by
    unfold ChunksRelayed Relay.Passes
    rw [show (Relay.start h s).session = s from rfl, response.arriving, List.take_left,
      List.drop_left, ← response.arriving]
    rfl
  have left : (Relay.start h s).Passes h (s.server.unread.length + 1) body.encode.length ↔
      LeftAt (Relay.start h s).serverBodySize s.buf s.server body.encode.length :=
    Relay.passes_iff chunked ready rfl (Nat.lt_succ_self _) arrives
  rw [passes, left, size]
  by_cases none_ : readLength headerLines = 0
  · rw [none_, body.leftAt_zero_iff s.buf response.arriving, or_iff_left fun both => both.1 rfl]
    exact (and_iff_right rfl).symm
  · rw [or_iff_right fun both => none_ both.1]
    exact (and_iff_right none_).symm

/-- A body of one chunk of one byte. -/
def oneChunk (byte : UInt8) : ChunkedBody where
  chunks := [⟨[byte], List.cons_ne_nil _ _, ⟨bytes "1", [], rfl, by decide⟩⟩]
  last := ⟨bytes "0", [], by decide, by decide⟩
  trailers := []

/-- A chunked response whose only byte of data is a letter. -/
def letterResponse : List String :=
  ["HTTP/1.1 200 OK\r\nTransfer-Encoding: chunked\r\n\r\n1\r\na\r\n0\r\n\r\n"]

/-- A chunked response whose only byte of data is a newline. -/
def newlineResponse : List String :=
  ["HTTP/1.1 200 OK\r\nTransfer-Encoding: chunked\r\n\r\n1\r\n\n\r\n0\r\n\r\n"]

/-- Texts arrive one after the other; a status line and a header are read. -/
def responseBehind (texts : List String) : HeaderRead :=
  let line := (CommClient.arriving texts).readlinex MAXLINE
  readHeader line.client (line.store []) (HttpHeader.new.appendLines [line.bytes])

/-- The session behind a response header. -/
def relayBehind (texts : List String) : Session where
  client := CommClient.arriving []
  server := (responseBehind texts).client
  buf := (responseBehind texts).buf
  url := []
  resp := []

/-- The lines in front of a chunked body. -/
def chunkedLines : List Bytes :=
  [bytes "HTTP/1.1 200 OK\r\n", bytes "Transfer-Encoding: chunked\r\n", bytes "\r\n"]

/-- They announce such a body. -/
theorem chunkedLines_announce : AnnouncesChunks chunkedLines where
  some_ := ⟨bytes "Transfer-Encoding: chunked\r\n", by decide, by decide, bytes "chunked",
    by decide, bytes " ", bytes "\r\n", List.all_eq_true.mp (by decide), by decide⟩
  none_ := by decide

/-- A chunk that holds a letter is relayed to the end of the body. -/
theorem chunksRelayed_letter :
    ChunksRelayed (oneChunk 97) [] (responseBehind letterResponse).header
      (relayBehind letterResponse) :=
  (chunksRelayed_iff ⟨chunkedLines_announce, ⟨_, _, [bytes "HTTP/1.1 200 OK\r\n"], rfl, by decide,
    by decide, rfl, rfl⟩, by decide, by decide, by decide⟩).mpr
      (Or.inl ⟨readLength_none (by decide), by decide⟩)

/-- Behind a chunk that ends in a newline the relay takes the end of the chunk for the end of the
body. -/
theorem not_chunksRelayed_newline :
    ChunkedResponse chunkedLines (oneChunk 10) [] (responseBehind newlineResponse).header
        (relayBehind newlineResponse) ∧
      ¬ ChunksRelayed (oneChunk 10) [] (responseBehind newlineResponse).header
        (relayBehind newlineResponse) := by
  constructor
  · exact ⟨chunkedLines_announce, ⟨_, _, [bytes "HTTP/1.1 200 OK\r\n"], rfl, by decide, by decide,
      rfl, rfl⟩, by decide, by decide, by decide⟩
  · rintro ⟨r, ran, sent, -⟩
    have relayed : (relayBody (responseBehind newlineResponse).header
        (relayBehind newlineResponse)).toOption.map
          (fun result => result.session.client.socket.sent) = some (bytes "1\r\n\n\r\n") := by
      decide
    have all : (relayBehind newlineResponse).client.socket.sent ++ (oneChunk 10).encode =
        bytes "1\r\n\n\r\n0\r\n\r\n" := by
      decide
    rw [ran] at relayed
    rw [all] at sent
    have same : bytes "1\r\n\n\r\n0\r\n\r\n" = bytes "1\r\n\n\r\n" :=
      sent.symm.trans (Option.some.inj relayed)
    exact absurd same (by decide)

end TinyTools.Proxy
