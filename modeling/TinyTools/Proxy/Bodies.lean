import TinyTools.Proxy.ChunkedRelay

/-!
# Bodies of an announced length

The length that a header announces and the number that is read for it differ where another line is
filed as a length, and where the length does not fit. A request body is forwarded with one read, so
it is forwarded exactly when a number is read and the first piece of the client's bytes is the body.
A response body is relayed in reads of a full buffer, so it ends where some read ends: it is
relayed exactly when the number is the length and the pieces are cut there, unless the response is
taken for chunked.
-/

namespace TinyTools.Proxy

open TinyTools.Lib

/-! ## Request bodies -/

/-- A request whose header announces a length, with at least so many bytes behind it, and a server
that is connected and takes everything. -/
structure AnnouncedRequest (headerLines : List Bytes) (length : ℕ) (h : HttpHeader) (s : Session) :
    Prop where
  /-- What the header says. -/
  announces : Announces length headerLines
  /-- The header was read. -/
  behind : BehindLines headerLines s.client h
  /-- The body is still to be read. -/
  arrives : length ≤ s.client.unread.length
  /-- The server is connected. -/
  connected : s.server.isOpen = true
  /-- Writes to it deliver everything. -/
  delivers : ∀ outcome ∈ s.server.socket.outcomes, outcome = none

/-- Where nothing arrives from the client nothing is forwarded, and a stream that breaks off ends
the exchange. -/
theorem sendBody_ended {h : HttpHeader} {s : Session} (announced : h.getBodySize ≠ 0)
    (ready : AfterHeader s.client h) (arriving : s.client.pieces = []) :
    if s.client.socket.broken then ∃ e, sendBody s h = .error e
    else ∃ s', sendBody s h = .ok (s', true) ∧ s'.server = s.server ∧ s'.client = s.client := by
  obtain ⟨open_, short⟩ := ready.ready
  have reads := CommClient.readx_pieces open_ short
  rw [arriving] at reads
  have answer : s.client.readx (MAXLINE - 1) = _ := reads
  unfold sendBody
  rw [if_pos (UInt64.pos_iff_ne_zero.mpr announced), answer]
  cases s.client.socket.broken with
  | true => exact ⟨_, rfl⟩
  | false =>
    have nothing : s.server.writex [] = (some 0, s.server) := rfl
    have none_ : (overlay s.buf []).take ([] : Bytes).length = [] := rfl
    simp only [Bool.false_eq_true, if_false, none_, nothing]
    exact ⟨_, rfl, rfl, rfl⟩

/-- Where nothing is announced, no bytes are forwarded. -/
theorem bodyForwarded_nothing_iff {length : ℕ} {h : HttpHeader} {s : Session}
    (none_ : h.getBodySize = 0) (arrives : length ≤ s.client.unread.length) :
    BodyForwarded length h s ↔ length = 0 := by
  unfold BodyForwarded
  rw [sendBody_nothing none_]
  constructor
  · rintro ⟨s', ended, ran, sent, -⟩
    obtain ⟨rfl, -⟩ := Prod.mk.inj (Except.ok.inj ran)
    have taken : s.client.unread.take length = [] := List.self_eq_append_right.mp sent
    have lengths := congrArg List.length taken
    rw [List.length_take, List.length_nil] at lengths
    omega
  · rintro rfl
    exact ⟨s, false, rfl, by rw [List.take_zero, List.append_nil], by rw [List.drop_zero]⟩

/-- Where nothing arrives, nothing is forwarded, and a broken stream ends the exchange. -/
theorem bodyForwarded_ended_iff {h : HttpHeader} {s : Session} (announced : h.getBodySize ≠ 0)
    (ready : AfterHeader s.client h) (arriving : s.client.pieces = []) :
    BodyForwarded 0 h s ↔ s.client.socket.broken = false := by
  have ended := sendBody_ended announced ready arriving
  cases broken : s.client.socket.broken with
  | true =>
    rw [broken] at ended
    obtain ⟨e, failed⟩ := ended
    refine iff_of_false (fun forwarded => ?_) nofun
    obtain ⟨s', ended, ran, -⟩ := forwarded
    rw [failed] at ran
    cases ran
  | false =>
    rw [broken] at ended
    obtain ⟨s', ran, server, client⟩ := ended
    refine iff_of_true ⟨s', true, ran, ?_, ?_⟩ rfl
    · rw [server, List.take_zero, List.append_nil]
    · rw [client, List.drop_zero]

/-- Of an announced body the first piece is forwarded, and no more. -/
theorem bodyForwarded_piece_iff {length : ℕ} {h : HttpHeader} {s : Session} {piece : Bytes}
    {others : List Bytes} (announced : h.getBodySize ≠ 0) (ready : AfterHeader s.client h)
    (connected : s.server.isOpen = true)
    (delivers : ∀ outcome ∈ s.server.socket.outcomes, outcome = none)
    (arriving : s.client.pieces = piece :: others) (arrives : length ≤ s.client.unread.length) :
    BodyForwarded length h s ↔ piece.length = length := by
  have flat := s.client.flatten_pieces
  rw [arriving, List.flatten_cons] at flat
  obtain ⟨s₁, ended₁, ran₁, sent₁, unread₁⟩ :=
    sendBody_piece announced ready connected delivers arriving
  unfold BodyForwarded
  rw [ran₁]
  constructor
  · rintro ⟨s', ended, ran, sent, -⟩
    obtain ⟨rfl, -⟩ := Prod.mk.inj (Except.ok.inj ran)
    have same := congrArg List.length (List.append_cancel_left (sent₁.symm.trans sent))
    rw [List.length_take] at same
    omega
  · intro full
    refine ⟨s₁, ended₁, rfl, ?_, ?_⟩
    · rw [sent₁, ← flat, ← full, List.take_left]
    · rw [unread₁, ← flat, ← full, List.drop_left]

/-- A request body is forwarded exactly when no number is read and there is none, or when a number
is read and the first piece of the client's bytes is the body, or there are none and the stream ends
without an error. -/
theorem bodyForwarded_iff {headerLines : List Bytes} {length : ℕ} {h : HttpHeader} {s : Session}
    (request : AnnouncedRequest headerLines length h s) :
    BodyForwarded length h s ↔
      readLength headerLines = 0 ∧ length = 0 ∨
        readLength headerLines ≠ 0 ∧
          (s.client.pieces.head?.map List.length = some length ∨
            s.client.pieces = [] ∧ s.client.socket.broken = false) := by
  have size : h.getBodySize = readLength headerLines := request.behind.getBodySize
  have arrives := request.arrives
  have ready := request.behind.spec.2
  by_cases none_ : readLength headerLines = 0
  · rw [or_iff_left fun both => both.1 none_, and_iff_right none_]
    exact bodyForwarded_nothing_iff (size.trans none_) arrives
  · rw [or_iff_right fun both => none_ both.1, and_iff_right none_]
    have announced : h.getBodySize ≠ 0 := size ▸ none_
    cases arriving : s.client.pieces with
    | nil =>
      rw [← s.client.flatten_pieces, arriving] at arrives
      obtain rfl : length = 0 := Nat.le_zero.mp arrives
      rw [bodyForwarded_ended_iff announced ready arriving, and_iff_right rfl]
      exact (or_iff_right nofun).symm
    | cons piece others =>
      rw [bodyForwarded_piece_iff announced ready request.connected request.delivers arriving
        arrives, or_iff_left fun both => List.cons_ne_nil _ _ both.1]
      exact Option.some_inj.symm

/-- Texts arrive one after the other; a request line and a header are read. -/
def requestBehind (texts : List String) : HeaderRead :=
  let line := (CommClient.arriving texts).readlinex MAXLINE
  readHeader line.client (line.store []) HttpHeader.new

/-- A request with a body of two bytes that arrives with its header, and then another one. -/
def wholeRequest : List String :=
  ["POST http://h/f HTTP/1.0\r\nContent-Length: 2\r\n\r\nab", "GET http://h/ HTTP/1.0\r\n\r\n"]

/-- A request with a body of two bytes of which only the first arrives with its header. -/
def splitRequest : List String :=
  ["POST http://h/f HTTP/1.0\r\nContent-Length: 2\r\n\r\na", "b"]

/-- The session behind a request header. -/
def sessionBehind (texts : List String) : Session where
  client := (requestBehind texts).client
  server := CommClient.arriving []
  buf := (requestBehind texts).buf
  url := []
  resp := []

/-- The lines in front of a body of two bytes. -/
def twoLines : List Bytes := [bytes "Content-Length: 2\r\n", bytes "\r\n"]

/-- They announce such a body. -/
theorem twoLines_announce : Announces 2 twoLines :=
  .of_line [] [bytes "\r\n"] ⟨bytes "\r\n", Or.inl rfl, by decide⟩ (by decide)

/-- A body that arrives with its header, and alone, is forwarded. -/
theorem bodyForwarded_two :
    BodyForwarded 2 (requestBehind wholeRequest).header (sessionBehind wholeRequest) :=
  (bodyForwarded_iff ⟨twoLines_announce, ⟨_, _, [], rfl, by decide, by decide, rfl, rfl⟩, by decide,
    by decide, by decide⟩).mpr (Or.inr ⟨by decide, Or.inl (by decide)⟩)

/-- Of a body whose two bytes arrive apart the first is forwarded. -/
theorem not_bodyForwarded_split :
    AnnouncedRequest twoLines 2 (requestBehind splitRequest).header (sessionBehind splitRequest) ∧
      ¬ BodyForwarded 2 (requestBehind splitRequest).header (sessionBehind splitRequest) := by
  constructor
  · exact ⟨twoLines_announce, ⟨_, _, [], rfl, by decide, by decide, rfl, rfl⟩, by decide, by decide,
      by decide⟩
  · rintro ⟨s', ended, ran, sent, -⟩
    have forwarded : (sendBody (sessionBehind splitRequest)
        (requestBehind splitRequest).header).toOption.map
          (fun result => result.1.server.socket.sent) = some (bytes "a") := by
      decide
    rw [ran] at forwarded
    have both : (sessionBehind splitRequest).server.socket.sent ++
        (sessionBehind splitRequest).client.unread.take 2 = bytes "ab" := by
      decide
    rw [both] at sent
    have same : bytes "ab" = bytes "a" := sent.symm.trans (Option.some.inj forwarded)
    exact absurd same (by decide)

/-! ## Response bodies -/

/-- A response whose header announces a length, with at least so many bytes behind it, and a client
that is connected and takes everything. -/
structure AnnouncedResponse (headerLines : List Bytes) (length : ℕ) (h : HttpHeader) (s : Session) :
    Prop where
  /-- What the header says. -/
  announces : Announces length headerLines
  /-- The header was read. -/
  behind : BehindLines headerLines s.server h
  /-- The body is still to be read. -/
  arrives : length ≤ s.server.unread.length
  /-- The client is connected. -/
  connected : s.client.isOpen = true
  /-- Writes to it deliver everything. -/
  delivers : ∀ outcome ∈ s.client.socket.outcomes, outcome = none

/-- The body of a response is passed on exactly, what follows it is still to be read, and the
remaining size never wraps. -/
def BodyRelayed (length : ℕ) (h : HttpHeader) (s : Session) : Prop :=
  (∃ r, relayBody h s = .ok r ∧
    r.session.client.socket.sent = s.client.socket.sent ++ s.server.unread.take length ∧
      r.session.server.unread = s.server.unread.drop length) ∧ (Relay.start h s).NeverWraps h

/-- A response that is not taken for chunked passes on a number of bytes exactly when the number
that is read is this one and some piece ends there, or when it is more than an intact stream holds
and the stream ends there. -/
theorem bodyRelayed_plain_iff {length : ℕ} {h : HttpHeader} {s : Session}
    (plain : h.isChunked = false) (ready : (Relay.start h s).Ready)
    (arrives : length ≤ s.server.unread.length) :
    BodyRelayed length h s ↔
      h.getBodySize.toNat = length ∧ EndsAt s.server.pieces length ∨
        s.server.unread.length < h.getBodySize.toNat ∧
          length = s.server.unread.length ∧ s.server.socket.broken = false := by
  have flat := s.server.flatten_pieces
  have enough : s.server.pieces.flatten.length < s.server.unread.length + 1 := by
    rw [flat]
    exact Nat.lt_succ_self _
  have arriving : (Relay.start h s).session.server.pieces = s.server.pieces := rfl
  have size : (Relay.start h s).serverBodySize = h.getBodySize := rfl
  have wraps := Relay.neverWraps_iff plain ready arriving
  have exact_ := relayLoop_exact plain ready arriving enough
  have broken_ := relayLoop_broken plain ready arriving enough
  rw [size] at wraps exact_ broken_
  rw [flat] at wraps exact_ broken_
  generalize h.getBodySize.toNat = size at wraps exact_ broken_
  unfold BodyRelayed relayBody
  rw [wraps]
  constructor
  · rintro ⟨⟨r, ran, sent, -⟩, ends | longer⟩
    · obtain ⟨r', ran', sent', -⟩ := exact_ (Or.inl ends)
      obtain rfl := Except.ok.inj (ran.symm.trans ran')
      have same := congrArg List.length (List.append_cancel_left (sent.symm.trans sent'))
      have bound := ends.le
      rw [flat] at bound
      rw [List.length_take, List.length_take] at same
      have equal : size = length := by omega
      exact Or.inl ⟨equal, equal ▸ ends⟩
    · cases intact : s.server.socket.broken with
      | true =>
        obtain ⟨s', failed⟩ := broken_ longer intact
        rw [failed] at ran
        cases ran
      | false =>
        obtain ⟨r', ran', sent', -⟩ := exact_ (Or.inr ⟨longer, intact⟩)
        obtain rfl := Except.ok.inj (ran.symm.trans ran')
        have same := congrArg List.length (List.append_cancel_left (sent.symm.trans sent'))
        rw [List.length_take, List.length_take] at same
        exact Or.inr ⟨longer, by omega, rfl⟩
  · rintro (⟨equal, ends⟩ | ⟨longer, whole, intact⟩)
    · rw [equal] at exact_ ⊢
      exact ⟨exact_ (Or.inl ends), Or.inl ends⟩
    · obtain ⟨r, ran, sent, unread⟩ := exact_ (Or.inr ⟨longer, intact⟩)
      rw [List.take_of_length_le longer.le] at sent
      rw [List.drop_of_length_le longer.le] at unread
      refine ⟨⟨r, ran, ?_, ?_⟩, Or.inr longer⟩
      · rw [sent, whole, List.take_length]
        rfl
      · rw [unread, whole, List.drop_length]

/-- The body of a response that announces its length is relayed exactly when this is the number that
is read and the pieces are cut there, or the number is more than an intact stream holds, which ends
with the body. When a line is misfiled as a transfer coding it is relayed exactly when the loop
happens to be left there, and the remaining size does not wrap before. -/
theorem bodyRelayed_iff {headerLines : List Bytes} {length : ℕ} {h : HttpHeader} {s : Session}
    (response : AnnouncedResponse headerLines length h s) :
    BodyRelayed length h s ↔
      readChunked headerLines = false ∧
          ((readLength headerLines).toNat = length ∧ EndsAt s.server.pieces length ∨
            s.server.unread.length < (readLength headerLines).toNat ∧
              length = s.server.unread.length ∧ s.server.socket.broken = false) ∨
        readChunked headerLines = true ∧
          LeftAt (readLength headerLines) s.buf s.server length ∧
            (length ≤ (readLength headerLines).toNat ∨
              EndsAt s.server.pieces (readLength headerLines).toNat) := by
  have size := response.behind.getBodySize
  have coded := response.behind.isChunked
  have arrives := response.arrives
  obtain ⟨open_, short⟩ := response.behind.spec.2.ready
  have ready : (Relay.start h s).Ready := ⟨open_, short, response.connected, response.delivers⟩
  rw [← size, ← coded]
  cases chunked : h.isChunked with
  | false =>
    rw [bodyRelayed_plain_iff chunked ready arrives]
    simp only [true_and, Bool.false_eq_true, false_and, or_false]
  | true =>
    have left : (Relay.start h s).Passes h (s.server.unread.length + 1) length ↔
        LeftAt h.getBodySize s.buf s.server length :=
      Relay.passes_iff chunked ready rfl (Nat.lt_succ_self _) arrives
    have wraps (passes : (Relay.start h s).Passes h (s.server.unread.length + 1) length) :
        (Relay.start h s).NeverWraps h ↔
          length ≤ h.getBodySize.toNat ∨ EndsAt s.server.pieces h.getBodySize.toNat :=
      Relay.neverWraps_passes_iff chunked ready rfl arrives passes (Nat.lt_succ_self _)
    rw [or_iff_right fun both => Bool.noConfusion both.1, and_iff_right rfl, ← left]
    exact and_congr_right wraps

/-- A response with a body of two bytes in two segments, and then another one. -/
def splitResponse : List String :=
  ["HTTP/1.0 200 OK\r\nContent-Length: 2\r\n\r\na", "b", "HTTP/1.0 200 OK\r\n\r\n"]

/-- A response with a body of one byte; another byte arrives with it. -/
def joinedResponse : List String := ["HTTP/1.0 200 OK\r\nContent-Length: 1\r\n\r\nab"]

/-- The lines in front of a body whose length is announced by a line. -/
def sizedLines (line : String) : List Bytes :=
  [bytes "HTTP/1.0 200 OK\r\n", bytes line, bytes "\r\n"]

/-- They announce the length that the line does. -/
theorem sizedLines_announce {length : ℕ} (line : String)
    (announces : IsLengthLine length (bytes line)) : Announces length (sizedLines line) :=
  .of_line [bytes "HTTP/1.0 200 OK\r\n"] [bytes "\r\n"] announces (by decide)

/-- A body with which a segment ends is relayed exactly. -/
theorem bodyRelayed_two :
    BodyRelayed 2 (responseBehind splitResponse).header (relayBehind splitResponse) := by
  have announces : Announces 2 (sizedLines "Content-Length: 2\r\n") :=
    sizedLines_announce _ ⟨bytes "\r\n", Or.inl rfl, by decide⟩
  have number := announces.readLength_eq (by decide) (by decide)
  exact (bodyRelayed_iff ⟨announces, ⟨_, _, [bytes "HTTP/1.0 200 OK\r\n"], rfl, by decide,
    by decide, rfl, rfl⟩, by decide, by decide, by decide⟩).mpr
      (Or.inl ⟨by decide, Or.inl ⟨number, 2, by decide⟩⟩)

/-- What arrives with the end of a body is relayed too. -/
theorem not_bodyRelayed_joined :
    AnnouncedResponse (sizedLines "Content-Length: 1\r\n") 1 (responseBehind joinedResponse).header
        (relayBehind joinedResponse) ∧
      ¬ BodyRelayed 1 (responseBehind joinedResponse).header (relayBehind joinedResponse) := by
  constructor
  · exact ⟨sizedLines_announce "Content-Length: 1\r\n" ⟨bytes "\r\n", Or.inl rfl, by decide⟩,
      ⟨_, _, [bytes "HTTP/1.0 200 OK\r\n"], rfl, by decide, by decide, rfl, rfl⟩, by decide,
      by decide, by decide⟩
  · rintro ⟨⟨r, ran, sent, -⟩, -⟩
    have relayed : (relayBody (responseBehind joinedResponse).header
        (relayBehind joinedResponse)).toOption.map
          (fun result => result.session.client.socket.sent) = some (bytes "ab") := by
      decide
    have first : (relayBehind joinedResponse).client.socket.sent ++
        (relayBehind joinedResponse).server.unread.take 1 = bytes "a" := by
      decide
    rw [ran] at relayed
    rw [first] at sent
    have same : bytes "a" = bytes "ab" := sent.symm.trans (Option.some.inj relayed)
    exact absurd same (by decide)

end TinyTools.Proxy
