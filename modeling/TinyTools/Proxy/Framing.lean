import TinyTools.Proxy.Minion

/-!
# Where bodies end

The loops of an exchange end: every round takes bytes of the stream. Behind a header bodies are read
in pieces of the arrivals, of a full buffer at most. A request body is one such piece. A response
that is not taken for chunked is relayed exactly when its arrivals are cut where the length ends.
-/

namespace TinyTools.Proxy

open TinyTools.Lib

/-! ## Enough rounds -/

/-- A line that was read is not empty, and its bytes are no longer unread. -/
theorem readlinex_shorter {c : CommClient} (read : ¬ (c.readlinex MAXLINE).numBytes ≤ 0) :
    (c.readlinex MAXLINE).client.unread.length < c.unread.length := by
  obtain ⟨-, split, -⟩ := c.lineLoop_spec (MAXLINE - 1)
  have all := congrArg List.length split
  rw [List.length_append] at all
  have positive := List.length_pos_iff.mpr (LineRead.bytes_ne_nil read)
  rw [CommClient.readlinex] at positive ⊢
  omega

/-- A header is read in as many rounds as there are bytes, and further rounds change nothing. -/
theorem headerLoop_enough (rounds : ℕ) (c : CommClient) (buf : Bytes) (h : HttpHeader)
    (enough : c.unread.length < rounds) : headerLoop rounds c buf h = readHeader c buf h := by
  unfold readHeader
  obtain ⟨size, bound⟩ : ∃ size, c.unread.length < size := ⟨_, Nat.lt_succ_self _⟩
  induction size generalizing rounds c buf h with
  | zero => exact absurd bound (Nat.not_lt_zero _)
  | succ size ih =>
    obtain ⟨rounds, rfl⟩ : ∃ n, rounds = n + 1 := ⟨rounds - 1, by omega⟩
    unfold headerLoop
    dsimp only
    by_cases ended : (c.readlinex MAXLINE).numBytes ≤ 0
    · rw [if_pos ended, if_pos ended]
    · have shorter := readlinex_shorter ended
      rw [if_neg ended, if_neg ended]
      split
      · rfl
      · rw [ih rounds _ _ _ (by omega) (by omega), ih c.unread.length _ _ _ shorter (by omega)]

/-- Passing bytes on concerns the client. -/
theorem Relay.pass_server {h : HttpHeader} {r r' : Relay} {numBytes : ℕ}
    (goesOn : r.pass h numBytes = .more r') : r'.session.server = r.session.server := by
  unfold pass at goesOn
  dsimp only at goesOn
  split at goesOn
  · cases goesOn
  · split at goesOn
    · cases goesOn
    · rw [← Turn.more.inj goesOn]

/-- Every round that goes on takes a byte from the server. -/
theorem Relay.step_shorter {h : HttpHeader} {r r' : Relay} (goesOn : r.step h = .more r') :
    r'.session.server.unread.length < r.session.server.unread.length := by
  obtain ⟨-, taken⟩ := r.session.server.readx_spec (show 0 < MAXLINE - 1 by decide)
  unfold step at goesOn
  split at goesOn
  · split at goesOn
    · cases goesOn
    · cases goesOn
    · rename_i chunk server some_ read
      rw [read] at taken
      rw [pass_server goesOn]
      have positive := List.length_pos_iff.mpr some_
      have all := taken.1
      dsimp only at all ⊢
      omega
  · split at goesOn
    · dsimp only at goesOn
      split at goesOn
      · cases goesOn
      · rename_i read
        rw [pass_server goesOn]
        exact readlinex_shorter read
    · cases goesOn

/-- A body is relayed in as many rounds as there are bytes, and further rounds change nothing. -/
theorem relayLoop_enough (h : HttpHeader) (rounds : ℕ) (r : Relay)
    (enough : r.session.server.unread.length < rounds) :
    relayLoop h rounds r = relayLoop h (r.session.server.unread.length + 1) r := by
  obtain ⟨size, bound⟩ : ∃ size, r.session.server.unread.length < size := ⟨_, Nat.lt_succ_self _⟩
  induction size generalizing rounds r with
  | zero => exact absurd bound (Nat.not_lt_zero _)
  | succ size ih =>
    obtain ⟨rounds, rfl⟩ : ∃ n, rounds = n + 1 := ⟨rounds - 1, by omega⟩
    unfold relayLoop
    cases round : r.step h with
    | closed s => rfl
    | leave r' => rfl
    | more r' =>
      have shorter := Relay.step_shorter round
      dsimp only
      rw [ih rounds r' (by omega) (by omega), ih _ r' shorter (by omega)]

/-! ## Behind a header -/

/-- A header was read from an open connection up to its empty line. -/
def AfterHeader (c : CommClient) (h : HttpHeader) : Prop :=
  ∃ c₀ buf h₀, c₀.isOpen = true ∧ 0 < (readHeader c₀ buf h₀).numBytes ∧
    (readHeader c₀ buf h₀).client = c ∧ (readHeader c₀ buf h₀).header = h

/-- Reading a header says nothing, and leaves less than a full line buffer. -/
theorem headerLoop_spec (rounds : ℕ) (c : CommClient) (buf : Bytes) (h : HttpHeader) :
    c.Kept (headerLoop rounds c buf h).client ∧
      (c.isOpen = true → 0 < rounds →
        (headerLoop rounds c buf h).client.line.counter < MAXLINE) := by
  induction rounds generalizing c buf h with
  | zero => exact ⟨.rfl, fun _ none => absurd none (Nat.lt_irrefl 0)⟩
  | succ rounds ih =>
    obtain ⟨kept, -, short⟩ := c.lineLoop_spec (MAXLINE - 1)
    unfold headerLoop
    dsimp only
    split_ifs
    · exact ⟨kept, fun open_ _ => short open_ (by decide)⟩
    · exact ⟨kept, fun open_ _ => short open_ (by decide)⟩
    · obtain ⟨kept', short'⟩ := ih (c.readlinex MAXLINE).client _ _
      refine ⟨kept.trans kept', fun open_ _ => ?_⟩
      cases rounds with
      | zero => exact short open_ (by decide)
      | succ rounds => exact short' (kept.isOpen.trans open_) (Nat.succ_pos rounds)

/-- Behind a header the connection is open and its line buffer is not full. -/
theorem AfterHeader.ready {c : CommClient} {h : HttpHeader} (after : AfterHeader c h) :
    c.isOpen = true ∧ c.line.counter ≤ MAXLINE - 1 := by
  obtain ⟨c₀, buf, h₀, open_, -, rfl, -⟩ := after
  obtain ⟨kept, short⟩ := headerLoop_spec (c₀.unread.length + 1) c₀ buf h₀
  have counter := short open_ (Nat.succ_pos _)
  exact ⟨kept.isOpen.trans open_, by unfold readHeader; omega⟩

/-! ## Request bodies -/

/-- The body of a request is forwarded exactly, and what follows it is still to be read. -/
def BodyForwarded (length : ℕ) (h : HttpHeader) (s : Session) : Prop :=
  ∃ s' ended, sendBody s h = .ok (s', ended) ∧
    s'.server.socket.sent = s.server.socket.sent ++ s.client.unread.take length ∧
      s'.client.unread = s.client.unread.drop length

/-- Without an announced body nothing is read. -/
theorem sendBody_nothing {h : HttpHeader} (none_ : h.getBodySize = 0) (s : Session) :
    sendBody s h = .ok (s, false) := by
  unfold sendBody
  rw [none_]
  exact if_neg (by decide)

/-- Of an announced body the first piece is forwarded. -/
theorem sendBody_piece {h : HttpHeader} {s : Session} {piece : Bytes} {others : List Bytes}
    (announced : h.getBodySize ≠ 0) (ready : AfterHeader s.client h)
    (connected : s.server.isOpen = true)
    (delivers : ∀ outcome ∈ s.server.socket.outcomes, outcome = none)
    (arriving : s.client.pieces = piece :: others) :
    ∃ s' ended, sendBody s h = .ok (s', ended) ∧
      s'.server.socket.sent = s.server.socket.sent ++ piece ∧
        s'.client.unread = others.flatten := by
  obtain ⟨open_, short⟩ := ready.ready
  have reads := CommClient.readx_pieces open_ short
  rw [arriving] at reads
  obtain ⟨client, read, -, rest, -⟩ := reads
  have content : (overlay s.buf piece).take piece.length = piece := List.take_left
  obtain ⟨server, wrote, -, -, sent, -⟩ := CommClient.writex_delivers connected delivers piece
  unfold sendBody
  rw [if_pos (UInt64.pos_iff_ne_zero.mpr announced), read]
  dsimp only
  rw [content, wrote]
  exact ⟨_, _, rfl, sent, by rw [← client.flatten_pieces, rest]⟩

/-! ## Rounds of the body loop -/

/-- Both connections of a session are open, writes to the client deliver everything, and the
server's line buffer is not full. -/
structure Relay.Ready (r : Relay) : Prop where
  /-- The server is connected. -/
  server : r.session.server.isOpen = true
  /-- Its line buffer is not full. -/
  short : r.session.server.line.counter ≤ MAXLINE - 1
  /-- The client is connected. -/
  client : r.session.client.isOpen = true
  /-- Writes to it deliver everything. -/
  delivers : ∀ outcome ∈ r.session.client.socket.outcomes, outcome = none

/-- The body kept after some bytes were passed on. -/
def Relay.bodyWith (h : HttpHeader) (r : Relay) (data : Bytes) : HttpBody :=
  if h.isCachable then ⟨r.serverBody.body ++ data⟩ else r.serverBody

/-- Passing bytes on sends them to the client and keeps them if they may be kept. -/
theorem Relay.pass_delivers (h : HttpHeader) {r : Relay} (open_ : r.session.client.isOpen = true)
    (delivers : ∀ outcome ∈ r.session.client.socket.outcomes, outcome = none) {data tail : Bytes}
    (content : r.session.buf = data ++ tail) :
    ∃ client, client.isOpen = true ∧ (∀ outcome ∈ client.socket.outcomes, outcome = none) ∧
      client.socket.sent = r.session.client.socket.sent ++ data ∧
        r.pass h data.length =
          if h.isChunked ∧ cString r.session.buf = bytes "\r\n" then
            .leave ⟨{ r.session with client := client }, r.bodyWith h data,
              if r.serverBodySize > 0 then r.serverBodySize - UInt64.ofNat data.length
              else r.serverBodySize⟩
          else
            .more ⟨{ r.session with client := client }, r.bodyWith h data,
              if r.serverBodySize > 0 then r.serverBodySize - UInt64.ofNat data.length
              else r.serverBodySize⟩ := by
  have taken : r.session.buf.take data.length = data := by rw [content, List.take_left]
  obtain ⟨client, wrote, open_, delivers, sent, -⟩ :=
    CommClient.writex_delivers open_ delivers data
  refine ⟨client, open_, delivers, sent, ?_⟩
  have kept : (if h.isCachable then r.serverBody.append r.session.buf data.length
      else r.serverBody) = r.bodyWith h data := by
    rw [bodyWith, HttpBody.append, taken]
  unfold pass
  dsimp only
  rw [taken, wrote, kept]

/-- A round that reads a piece of a body passes it on, and is the last one of a chunked body when
`buf` holds an empty line then. -/
theorem Relay.step_piece {h : HttpHeader} {r : Relay} {piece : Bytes} {others : List Bytes}
    (ready : r.Ready) (remain : r.serverBodySize > 0)
    (arriving : r.session.server.pieces = piece :: others) :
    ∃ r', r.step h = (if h.isChunked ∧ cString r'.session.buf = bytes "\r\n" then .leave r'
        else .more r') ∧
      r'.Ready ∧ r'.session.server.pieces = others ∧
      r.session.server.readx (MAXLINE - 1) = (some piece, r'.session.server) ∧
        r'.session.server.socket.broken = r.session.server.socket.broken ∧
          r'.serverBodySize = r.serverBodySize - UInt64.ofNat piece.length ∧
            r'.session.client.socket.sent = r.session.client.socket.sent ++ piece ∧
              r'.session.buf = overlay r.session.buf piece ∧ piece ≠ [] ∧
                piece.length ≤ MAXLINE - 1 := by
  have reads := CommClient.readx_pieces ready.server ready.short
  rw [arriving] at reads
  obtain ⟨server, read, kept, rest, left, some_, bound⟩ := reads
  let r₁ : Relay := { r with session := { r.session with
    server := server
    buf := overlay r.session.buf piece } }
  have ready₁ : r₁.Ready :=
    ⟨kept.isOpen.trans ready.server, left.le.trans (Nat.zero_le _), ready.client, ready.delivers⟩
  obtain ⟨client, open_, delivers, sent, passed⟩ :=
    pass_delivers h ready₁.client ready₁.delivers rfl
  rw [if_pos remain] at passed
  let r₂ : Relay := ⟨{ r₁.session with client := client }, r₁.bodyWith h piece,
    r.serverBodySize - UInt64.ofNat piece.length⟩
  refine ⟨r₂, ?_, ⟨ready₁.server, ready₁.short, open_, delivers⟩, rest, read, kept.broken,
    rfl, sent, rfl, some_, bound⟩
  unfold step
  rw [if_pos remain, read]
  cases piece with
  | nil => exact absurd rfl some_
  | cons byte piece => exact passed

/-- Otherwise another round follows. -/
theorem Relay.step_piece_plain {h : HttpHeader} {r : Relay} {piece : Bytes} {others : List Bytes}
    (plain : h.isChunked = false) (ready : r.Ready) (remain : r.serverBodySize > 0)
    (arriving : r.session.server.pieces = piece :: others) :
    ∃ r', r.step h = .more r' ∧ r'.Ready ∧ r'.session.server.pieces = others ∧
      r.session.server.readx (MAXLINE - 1) = (some piece, r'.session.server) ∧
        r'.session.server.socket.broken = r.session.server.socket.broken ∧
          r'.serverBodySize = r.serverBodySize - UInt64.ofNat piece.length ∧
            r'.session.client.socket.sent = r.session.client.socket.sent ++ piece ∧ piece ≠ [] ∧
              piece.length ≤ MAXLINE - 1 := by
  obtain ⟨r', round, ready', rest, read, broken, size, sent, -, some_, bound⟩ :=
    step_piece (h := h) ready remain arriving
  have goesOn : ¬ (h.isChunked = true ∧ cString r'.session.buf = bytes "\r\n") := by
    rw [plain]
    rintro ⟨chunked, -⟩
    cases chunked
  rw [if_neg goesOn] at round
  exact ⟨r', round, ready', rest, read, broken, size, sent, some_, bound⟩

/-- Rounds lead from one state to another. -/
inductive Relay.Reaches (h : HttpHeader) : Relay → Relay → Prop
  /-- No round. -/
  | refl (r : Relay) : Reaches h r r
  /-- A round, and then others. -/
  | more {r r₁ r₂ : Relay} (round : r.step h = .more r₁) (later : Reaches h r₁ r₂) : Reaches h r r₂

/-- Whatever a round reads is taken from a remaining size that is at least as large. -/
def Relay.NeverWraps (h : HttpHeader) (r : Relay) : Prop :=
  ∀ r₁, Reaches h r r₁ → r₁.serverBodySize > 0 → ∀ piece server,
    r₁.session.server.readx (MAXLINE - 1) = (some piece, server) →
      piece.length ≤ r₁.serverBodySize.toNat

/-- A round that reads a piece wraps, or a later one does. -/
theorem Relay.neverWraps_more {h : HttpHeader} {r r' : Relay} {piece : Bytes}
    (remain : r.serverBodySize > 0) (round : r.step h = .more r')
    (read : r.session.server.readx (MAXLINE - 1) = (some piece, r'.session.server)) :
    r.NeverWraps h ↔ piece.length ≤ r.serverBodySize.toNat ∧ r'.NeverWraps h := by
  constructor
  · intro never
    exact ⟨never r (.refl r) remain piece _ read, fun r₁ later => never r₁ (.more round later)⟩
  · rintro ⟨fits, never⟩ r₁ reached
    cases reached with
    | refl =>
      intro _ piece' server read'
      obtain ⟨same, -⟩ := Prod.mk.inj (read.symm.trans read')
      rw [← Option.some.inj same]
      exact fits
    | more round' later =>
      obtain rfl := Turn.more.inj (round.symm.trans round')
      exact never r₁ later

/-- A last round that reads a piece is the only one that can wrap. -/
theorem Relay.neverWraps_leave {h : HttpHeader} {r r' : Relay} {piece : Bytes}
    (remain : r.serverBodySize > 0) (round : r.step h = .leave r')
    (read : r.session.server.readx (MAXLINE - 1) = (some piece, r'.session.server)) :
    r.NeverWraps h ↔ piece.length ≤ r.serverBodySize.toNat := by
  constructor
  · intro never
    exact never r (.refl r) remain piece _ read
  · rintro fits r₁ reached
    cases reached with
    | refl =>
      intro _ piece' server read'
      obtain ⟨same, -⟩ := Prod.mk.inj (read.symm.trans read')
      rw [← Option.some.inj same]
      exact fits
    | more round' later =>
      rw [round] at round'
      cases round'

/-- Nothing wraps in a loop that is left in its first round without taking anything. -/
theorem Relay.neverWraps_last {h : HttpHeader} {r : Relay} (last : ∀ r', r.step h ≠ .more r')
    (nothing : r.serverBodySize > 0 → ∀ piece server,
      r.session.server.readx (MAXLINE - 1) = (some piece, server) → piece = []) :
    r.NeverWraps h := by
  intro r₁ reached
  cases reached with
  | refl =>
    intro remain piece server read
    rw [nothing remain piece server read]
    exact Nat.zero_le _
  | more round _ => exact absurd round (last _)

/-- Where nothing arrives, nothing is taken. -/
theorem Relay.readx_nil {r : Relay} (ready : r.Ready) (arriving : r.session.server.pieces = [])
    {piece : Bytes} {server : CommClient}
    (read : r.session.server.readx (MAXLINE - 1) = (some piece, server)) : piece = [] := by
  have reads := CommClient.readx_pieces ready.server ready.short
  rw [arriving] at reads
  obtain ⟨ended, -⟩ := Prod.mk.inj (reads.symm.trans read)
  split at ended
  · cases ended
  · exact (Option.some.inj ended).symm

/-! ## Response bodies of an announced length -/

/-- Some number of pieces has a given length together. -/
def EndsAt (pieces : List Bytes) (length : ℕ) : Prop :=
  ∃ n, (pieces.take n).flatten.length = length

/-- No pieces have no length. -/
theorem endsAt_zero (pieces : List Bytes) : EndsAt pieces 0 := ⟨0, rfl⟩

/-- No pieces end at zero only. -/
theorem endsAt_nil {length : ℕ} : EndsAt [] length ↔ length = 0 := by
  constructor
  · rintro ⟨n, total⟩
    rw [List.take_nil] at total
    exact total.symm
  · rintro rfl
    exact endsAt_zero []

/-- Pieces end at a positive length when the first fits and the others end at what remains. -/
theorem endsAt_cons {piece : Bytes} {others : List Bytes} {length : ℕ} (some_ : length ≠ 0) :
    EndsAt (piece :: others) length ↔
      piece.length ≤ length ∧ EndsAt others (length - piece.length) := by
  constructor
  · rintro ⟨n, total⟩
    cases n with
    | zero => exact absurd total.symm some_
    | succ n =>
      rw [List.take_succ_cons, List.flatten_cons, List.length_append] at total
      exact ⟨by omega, n, by omega⟩
  · rintro ⟨fits, n, total⟩
    refine ⟨n + 1, ?_⟩
    rw [List.take_succ_cons, List.flatten_cons, List.length_append, total]
    omega

/-- What ends somewhere is not longer than all of it. -/
theorem EndsAt.le {pieces : List Bytes} {length : ℕ} (ends : EndsAt pieces length) :
    length ≤ pieces.flatten.length := by
  obtain ⟨n, rfl⟩ := ends
  rw [← List.take_append_drop n pieces, List.flatten_append, List.length_append,
    List.take_append_drop]
  exact Nat.le_add_right _ _

/-- What remains after a piece that fits. -/
theorem remaining_sub {size : UInt64} {piece : Bytes} (bound : piece.length ≤ MAXLINE - 1)
    (fits : piece.length ≤ size.toNat) :
    (size - UInt64.ofNat piece.length).toNat = size.toNat - piece.length := by
  have small : piece.length < 2 ^ 64 := by
    rw [MAXLINE] at bound
    omega
  have same : (UInt64.ofNat piece.length).toNat = piece.length := UInt64.toNat_ofNat_of_lt' small
  have below : UInt64.ofNat piece.length ≤ size := UInt64.le_iff_toNat_le.mpr (same.trans_le fits)
  rw [UInt64.toNat_sub_of_le _ _ below, same]

/-- The loop is left at the end of the stream, and the exchange ends behind a broken one. -/
theorem Relay.step_ended (h : HttpHeader) {r : Relay} (ready : r.Ready)
    (remain : r.serverBodySize > 0) (arriving : r.session.server.pieces = []) :
    r.step h = if r.session.server.socket.broken then .closed r.session.close else .leave r := by
  have reads := CommClient.readx_pieces ready.server ready.short
  rw [arriving] at reads
  rw [step, if_pos remain, reads]
  cases r.session.server.socket.broken <;> rfl

section

variable {h : HttpHeader} (plain : h.isChunked = false)
include plain

/-- The loop is left when nothing remains. -/
theorem Relay.step_done {r : Relay} (done : r.serverBodySize = 0) : r.step h = .leave r := by
  have notMore : ¬ r.serverBodySize > 0 := by rw [done]; decide
  have notChunked : ¬ h.isChunked = true := by rw [plain]; decide
  rw [step, if_neg notMore, if_neg notChunked]

/-- The remaining size never wraps exactly when some piece ends at it, or the stream ends before
it. -/
theorem Relay.neverWraps_iff {pieces : List Bytes} {r : Relay} (ready : r.Ready)
    (arriving : r.session.server.pieces = pieces) :
    r.NeverWraps h ↔ EndsAt pieces r.serverBodySize.toNat ∨
      pieces.flatten.length < r.serverBodySize.toNat := by
  induction pieces generalizing r with
  | nil =>
    have never : r.NeverWraps h := by
      refine neverWraps_last (fun r' round => ?_) fun _ _ _ read => readx_nil ready arriving read
      by_cases remain : r.serverBodySize > 0
      · rw [step_ended h ready remain arriving] at round
        split at round <;> cases round
      · rw [step_done plain (UInt64.le_zero_iff.mp (UInt64.not_lt.mp remain))] at round
        cases round
    refine ⟨fun _ => ?_, fun _ => never⟩
    rw [endsAt_nil]
    exact Nat.eq_zero_or_pos _
  | cons piece others ih =>
    by_cases remain : r.serverBodySize > 0
    · obtain ⟨r', round, ready', rest, read, -, size, -, some_, bound⟩ :=
        step_piece_plain plain ready remain arriving
      have positive : r.serverBodySize.toNat ≠ 0 := by
        have := UInt64.lt_iff_toNat_lt.mp remain
        exact Nat.ne_of_gt this
      rw [neverWraps_more remain round read, ih ready' rest, size, endsAt_cons positive,
        List.flatten_cons, List.length_append]
      constructor
      · rintro ⟨fits, later⟩
        rw [remaining_sub bound fits] at later
        rcases later with ends | longer
        · exact Or.inl ⟨fits, ends⟩
        · exact Or.inr (by omega)
      · rintro (⟨fits, ends⟩ | longer)
        · exact ⟨fits, Or.inl (by rw [remaining_sub bound fits]; exact ends)⟩
        · have fits : piece.length ≤ r.serverBodySize.toNat := by omega
          exact ⟨fits, Or.inr (by rw [remaining_sub bound fits]; omega)⟩
    · have done := UInt64.le_zero_iff.mp (UInt64.not_lt.mp remain)
      refine ⟨fun _ => Or.inl (by rw [done]; exact endsAt_zero _), fun _ => ?_⟩
      refine neverWraps_last (fun r' round => ?_) fun more => absurd more remain
      rw [step_done plain done] at round
      cases round

/-- When a piece ends at the remaining size, or an intact stream ends before it, that many bytes are
passed on. -/
theorem relayLoop_exact {pieces : List Bytes} {rounds : ℕ} {r : Relay} (ready : r.Ready)
    (arriving : r.session.server.pieces = pieces) (enough : pieces.flatten.length < rounds)
    (fits : EndsAt pieces r.serverBodySize.toNat ∨
      pieces.flatten.length < r.serverBodySize.toNat ∧
        r.session.server.socket.broken = false) :
    ∃ r', relayLoop h rounds r = .ok r' ∧
      r'.session.client.socket.sent =
        r.session.client.socket.sent ++ pieces.flatten.take r.serverBodySize.toNat ∧
      r'.session.server.unread = pieces.flatten.drop r.serverBodySize.toNat := by
  induction pieces generalizing rounds r with
  | nil =>
    obtain ⟨rounds, rfl⟩ : ∃ n, rounds = n + 1 := ⟨rounds - 1, by omega⟩
    have left : r.step h = .leave r := by
      by_cases remain : r.serverBodySize > 0
      · have positive := UInt64.lt_iff_toNat_lt.mp remain
        rcases fits with ends | ⟨-, intact⟩
        · exact absurd (endsAt_nil.mp ends) (Nat.ne_of_gt positive)
        · rw [Relay.step_ended h ready remain arriving, intact]
          rfl
      · exact Relay.step_done plain (UInt64.le_zero_iff.mp (UInt64.not_lt.mp remain))
    refine ⟨r, by rw [relayLoop, left], ?_, ?_⟩
    · rw [List.flatten_nil, List.take_nil, List.append_nil]
    · rw [← r.session.server.flatten_pieces, arriving, List.flatten_nil, List.drop_nil]
  | cons piece others ih =>
    obtain ⟨rounds, rfl⟩ : ∃ n, rounds = n + 1 := ⟨rounds - 1, by omega⟩
    by_cases remain : r.serverBodySize > 0
    · obtain ⟨r', round, ready', rest, -, broken, size, sent, some_, bound⟩ :=
        Relay.step_piece_plain plain ready remain arriving
      have positive : r.serverBodySize.toNat ≠ 0 :=
        Nat.ne_of_gt (UInt64.lt_iff_toNat_lt.mp remain)
      have shorter := List.length_pos_iff.mpr some_
      rw [List.flatten_cons, List.length_append] at enough fits
      rw [endsAt_cons positive] at fits
      have first : piece.length ≤ r.serverBodySize.toNat := by
        rcases fits with ⟨first, -⟩ | ⟨longer, -⟩
        · exact first
        · omega
      have left := remaining_sub bound first
      have later : EndsAt others r'.serverBodySize.toNat ∨
          others.flatten.length < r'.serverBodySize.toNat ∧
            r'.session.server.socket.broken = false := by
        rw [size, left, broken]
        rcases fits with ⟨-, ends⟩ | ⟨longer, intact⟩
        · exact Or.inl ends
        · exact Or.inr ⟨by omega, intact⟩
      have fewer : others.flatten.length < rounds := by omega
      obtain ⟨last, ran, sent', unread⟩ := ih ready' rest fewer later
      rw [size, left] at sent' unread
      refine ⟨last, by rw [relayLoop, round]; exact ran, ?_, ?_⟩
      · rw [sent', sent, List.append_assoc, List.flatten_cons, List.take_append,
          List.take_of_length_le first]
      · rw [unread, List.flatten_cons, List.drop_append, List.drop_of_length_le first,
          List.nil_append]
    · have done := UInt64.le_zero_iff.mp (UInt64.not_lt.mp remain)
      refine ⟨r, by rw [relayLoop, Relay.step_done plain done], ?_, ?_⟩
      · rw [done, UInt64.toNat_zero, List.take_zero, List.append_nil]
      · rw [done, UInt64.toNat_zero, List.drop_zero, ← arriving, CommClient.flatten_pieces]

/-- When the stream breaks off before the remaining size, the exchange ends. -/
theorem relayLoop_broken {pieces : List Bytes} {rounds : ℕ} {r : Relay} (ready : r.Ready)
    (arriving : r.session.server.pieces = pieces) (enough : pieces.flatten.length < rounds)
    (longer : pieces.flatten.length < r.serverBodySize.toNat)
    (broken : r.session.server.socket.broken = true) :
    ∃ s, relayLoop h rounds r = .error (s, .closed) := by
  have remain {r : Relay} {size : ℕ} (longer : size < r.serverBodySize.toNat) :
      r.serverBodySize > 0 := by
    apply UInt64.lt_iff_toNat_lt.mpr
    rw [UInt64.toNat_zero]
    omega
  induction pieces generalizing rounds r with
  | nil =>
    obtain ⟨rounds, rfl⟩ : ∃ n, rounds = n + 1 := ⟨rounds - 1, by omega⟩
    refine ⟨r.session.close, ?_⟩
    rw [relayLoop, Relay.step_ended h ready (remain longer) arriving, broken]
    rfl
  | cons piece others ih =>
    obtain ⟨rounds, rfl⟩ : ∃ n, rounds = n + 1 := ⟨rounds - 1, by omega⟩
    obtain ⟨r', round, ready', rest, -, broken', size, -, some_, bound⟩ :=
      Relay.step_piece_plain plain ready (remain longer) arriving
    have shorter := List.length_pos_iff.mpr some_
    rw [List.flatten_cons, List.length_append] at enough longer
    have left := remaining_sub bound (show piece.length ≤ r.serverBodySize.toNat by omega)
    rw [← size] at left
    have fewer : others.flatten.length < rounds := by omega
    obtain ⟨s, ran⟩ := ih ready' rest fewer (by omega) (broken'.trans broken)
    exact ⟨s, by rw [relayLoop, round]; exact ran⟩

end

end TinyTools.Proxy
