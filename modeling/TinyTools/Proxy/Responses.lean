import TinyTools.Proxy.HeaderLines

/-!
# Reading a response

What the exchange reads of a response in front of its body, and how the origin's stream can end in
it: in front of the status line, within the header, or behind the header before the body that it
announces. A header that is complete consists of the lines of the stream up to the first empty one.
-/

namespace TinyTools.Proxy

open TinyTools.Lib

/-- What follows the status line of a response, as the exchange reads it. -/
def responseHeader (s : Session) : HeaderRead :=
  let line := s.server.readlinex MAXLINE
  let buf := line.store s.buf
  readHeader line.client (buf.set (MAXLINE - 1) 0) (HttpHeader.new.append buf line.bytes.length)

/-- The word of the status line that is taken for the code. -/
def statusCode (s : Session) : Option TokenAt := do
  let buf := ((s.server.readlinex MAXLINE).store s.buf).set (MAXLINE - 1) 0
  let first ← strtokAt (bytes " ") (overlay s.resp (cString buf)) 0
  strtokAt (bytes " ") first.memory first.next

/-- The origin's stream ends before the status line. -/
def NoStatusLine (s : Session) : Prop := (s.server.readlinex MAXLINE).numBytes = 0

/-- Behind a status line the origin's stream ends before the empty line. -/
def HeaderCut (s : Session) : Prop :=
  0 < (s.server.readlinex MAXLINE).numBytes ∧ (responseHeader s).numBytes = 0

/-- Behind the header, whose lines are those of the origin's stream in front, that stream ends
before the length that they announce. -/
def BodyCut (s s₃ : Session) : Prop :=
  ∃ length, Announces length (responseLines s.server.unread) ∧
    s₃.server.socket.broken = false ∧ s₃.server.unread.length < length

/-! ## Reading a response -/

/-- What reading a response comes to. -/
inductive Responded (s : Session) : Except Early (Session × HttpHeader × ℤ) → Prop
  /-- There is no status line. -/
  | nothing {s' : Session} (ended : (s.server.readlinex MAXLINE).numBytes ≤ 0) :
    Responded s (giveUp s')
  /-- The status line has no code. -/
  | noCode {s' : Session} (line : 0 < (s.server.readlinex MAXLINE).numBytes)
    (code : statusCode s = none) : Responded s (.error (s', .aborted))
  /-- Reading the header fails. -/
  | broken {s' : Session} (line : 0 < (s.server.readlinex MAXLINE).numBytes)
    (code : statusCode s ≠ none) (failed : (responseHeader s).numBytes < 0) :
    Responded s (giveUp s')
  /-- The header is read, or cut. -/
  | header {s₃ : Session} {codeNum : ℤ} (line : 0 < (s.server.readlinex MAXLINE).numBytes)
    (code : statusCode s ≠ none) (ended : 0 ≤ (responseHeader s).numBytes)
    (server : s₃.server = (responseHeader s).client) :
    Responded s (.ok (s₃, (responseHeader s).header, codeNum))

/-- Reading a response comes to one of these. -/
theorem readResponse_responded (s : Session) : Responded s (readResponse s) := by
  unfold readResponse
  dsimp only
  by_cases ended : (s.server.readlinex MAXLINE).numBytes ≤ 0
  · rw [if_pos ended]
    exact .nothing ended
  · have line := not_le.mp ended
    rw [if_neg ended]
    split
    next found => exact .noCode line found
    next code found =>
      have known : statusCode s ≠ none := by
        rw [show statusCode s = some code from found]
        exact Option.some_ne_none code
      split_ifs with failed
      · exact .broken line known failed
      · exact .header line known (not_lt.mp failed) rfl

/-! ## The end of the stream -/

/-- A response that was read has a status line. -/
theorem not_noStatusLine {s s₃ : Session} {h : HttpHeader} {code : ℤ}
    (read : readResponse s = .ok (s₃, h, code)) : ¬ NoStatusLine s := by
  intro nothing
  have responded := readResponse_responded s
  rw [read] at responded
  cases responded with
  | header line => exact absurd line (by rw [show _ = _ from nothing]; exact lt_irrefl 0)

/-- A complete header of a response consists of the lines of the stream in front of the body. -/
theorem readResponse_behind {s s₃ : Session} {h : HttpHeader} {code : ℤ}
    (open_ : s.server.isOpen = true) (read : readResponse s = .ok (s₃, h, code))
    (whole : ¬ HeaderCut s) : BehindLines (responseLines s.server.unread) s₃.server h := by
  have responded := readResponse_responded s
  rw [read] at responded
  cases responded with
  | header line code ended server =>
    have some_ : ¬ (s.server.readlinex MAXLINE).numBytes ≤ 0 := not_le.mpr line
    obtain ⟨kept, -, -⟩ := s.server.lineLoop_spec (MAXLINE - 1)
    have header : responseHeader s = readHeader (s.server.readlinex MAXLINE).client
        (((s.server.readlinex MAXLINE).store s.buf).set (MAXLINE - 1) 0)
          (HttpHeader.new.appendLines [(s.server.readlinex MAXLINE).bytes]) := by
      unfold responseHeader
      dsimp only
      rw [LineRead.append_store some_]
      rfl
    have complete : 0 < (responseHeader s).numBytes := by
      apply lt_of_le_of_ne ended
      intro zero
      exact whole ⟨line, zero.symm⟩
    rw [header] at complete
    rw [server, header]
    refine ⟨(s.server.readlinex MAXLINE).client, _, [(s.server.readlinex MAXLINE).bytes],
      kept.isOpen.trans open_, ?_, complete, rfl, rfl⟩
    unfold responseLines
    rw [CommClient.readlinex_first some_]
    rfl

/-- What follows the request line of a request, as the exchange reads it. -/
def requestHeader (s : Session) : HeaderRead :=
  let line := s.client.readlinex MAXLINE
  readHeader line.client ((line.store s.buf).set (MAXLINE - 1) 0) HttpHeader.new

/-- A complete header of a request consists of the lines of the stream behind the request line. -/
theorem readRequest_behind {s s' : Session} {address : Address} {h : HttpHeader}
    (open_ : s.client.isOpen = true) (read : readRequest s = .request s' address h)
    (whole : 0 < (requestHeader s).numBytes) :
    BehindLines (upToEmpty ((splitLines MAXLINE s.client.unread).drop 1)) s'.client h := by
  unfold readRequest at read
  dsimp only at read
  split_ifs at read with ended
  obtain ⟨kept, -, -⟩ := s.client.lineLoop_spec (MAXLINE - 1)
  rw [CommClient.readlinex_first ended]
  split at read
  · cases read
  split_ifs at read
  obtain ⟨rfl, -, rfl⟩ := Incoming.request.inj read
  exact ⟨(s.client.readlinex MAXLINE).client, _, [], kept.isOpen.trans open_, rfl, whole, rfl, rfl⟩

end TinyTools.Proxy
