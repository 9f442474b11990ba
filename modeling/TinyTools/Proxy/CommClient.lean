import TinyTools.Lib.CString

/-!
# Connections and their line buffer

A socket delivers its incoming bytes in segments: one `read` answers at most one segment, and what
does not fit stays for the next. Lines are read through a buffer that one `read` refills; `readx`
takes from the same buffer before it reads the socket itself. Segments hold at least one byte and
the buffer pointer stays inside the buffer by construction.
-/

namespace TinyTools.Proxy

open TinyTools.Lib

/-- `MAXLINE`. -/
def MAXLINE : ℕ := 8192

/-- Bytes that arrive together. -/
structure Segment where
  /-- The first byte. -/
  first : UInt8
  /-- The bytes behind it. -/
  rest : Bytes
deriving DecidableEq

/-- The bytes of a segment. -/
def Segment.bytes (s : Segment) : Bytes := s.first :: s.rest

/-- A byte string as a segment in front of others; nothing for the empty string. -/
def consSegment : Bytes → List Segment → List Segment
  | [], segments => segments
  | byte :: rest, segments => ⟨byte, rest⟩ :: segments

/-- A connected socket. -/
structure Socket where
  /-- The segments that still arrive. -/
  pending : List Segment
  /-- Behind the last segment `read` fails instead of answering the end of the stream. -/
  broken : Bool
  /-- The bytes delivered to the peer. -/
  sent : Bytes
  /-- The outcomes of the coming writes: all of the buffer, or an error behind some bytes of it.
  Once the list is used up, writes succeed. -/
  outcomes : List (Option ℕ)
deriving DecidableEq

/-- `read` with room for `size` bytes, interrupted calls repeated; none is an error. -/
def Socket.read (s : Socket) (size : ℕ) : Option Bytes × Socket :=
  match s.pending with
  | [] => (if s.broken then none else some [], s)
  | segment :: others =>
    (some (segment.bytes.take size),
      { s with pending := consSegment (segment.bytes.drop size) others })

/-- `buffer`, `buf_ptr` and `counter`: the bytes of the last refill, the place in them and the
number of bytes left. -/
structure LineBuffer where
  /-- The bytes of the last refill. -/
  buffer : Bytes
  /-- The place of the next byte. -/
  ptr : ℕ
  /-- The number of bytes left. -/
  counter : ℕ
  /-- The bytes left are in the buffer. -/
  inside : ptr + counter ≤ buffer.length
  /-- A refill fits in the array. -/
  small : buffer.length ≤ MAXLINE

/-- A buffer with nothing left. -/
def LineBuffer.empty : LineBuffer := ⟨[], 0, 0, Nat.le_refl _, Nat.zero_le _⟩

/-- A buffer refilled by one `read`. -/
def LineBuffer.refill (chunk : Bytes) : LineBuffer :=
  ⟨chunk.take MAXLINE, 0, (chunk.take MAXLINE).length, by omega, List.length_take_le ..⟩

/-- The bytes left. -/
def LineBuffer.left (line : LineBuffer) : Bytes := (line.buffer.drop line.ptr).take line.counter

/-- Take one byte and move on. -/
def LineBuffer.next (line : LineBuffer) : Option (UInt8 × LineBuffer) :=
  if some_ : 0 < line.counter then
    some (line.buffer.get ⟨line.ptr, by have := line.inside; omega⟩,
      ⟨line.buffer, line.ptr + 1, line.counter - 1, by have := line.inside; omega, line.small⟩)
  else none

/-- Count bytes off without moving on, as `readx` does. -/
def LineBuffer.count (line : LineBuffer) (size : ℕ) : LineBuffer :=
  ⟨line.buffer, line.ptr, line.counter - size, by have := line.inside; omega, line.small⟩

/-- `CommClient`. A closed one keeps the record of its last connection. -/
structure CommClient where
  /-- `socket_fd` is a connected socket. -/
  isOpen : Bool
  /-- The connection. -/
  socket : Socket
  /-- `host`. -/
  host : Bytes
  /-- `port`. -/
  port : UInt16
  /-- The line buffer. -/
  line : LineBuffer

/-- The bytes that have arrived or will arrive and were not read. -/
def CommClient.unread (c : CommClient) : Bytes :=
  c.line.left ++ c.socket.pending.flatMap Segment.bytes

/-- A socket that was never connected. -/
def noSocket : Socket := ⟨[], false, [], []⟩

/-- `CommClient::CommClient()`. -/
def CommClient.unconnected : CommClient := ⟨false, noSocket, [], 0, LineBuffer.empty⟩

/-- `CommClient::CommClient(int)`: an accepted connection. -/
def CommClient.accepted (socket : Socket) : CommClient := ⟨true, socket, [], 0, LineBuffer.empty⟩

/-- An accepted connection on which texts arrive one after the other. -/
def CommClient.arriving (texts : List String) : CommClient :=
  accepted ⟨texts.foldr (fun text => consSegment (bytes text)) [], false, [], []⟩

/-- `CommClient::closex`. -/
def CommClient.closex (c : CommClient) : CommClient := { c with isOpen := false }

/-- `CommClient::init`. -/
def CommClient.init (c : CommClient) (host : Bytes) (port : UInt16) : CommClient :=
  { c with isOpen := false, host := host, port := port, line := LineBuffer.empty }

/-- `CommClient::setHostPort`: a connection to another host or port is given up. -/
def CommClient.setHostPort (c : CommClient) (host : Bytes) (port : UInt16) : CommClient :=
  if c.isOpen then
    if c.host = host ∧ c.port = port then c else c.closex.init host port
  else c.init host port

/-- `CommClient::openx`: an open connection is kept; otherwise the socket that the connection
attempt answers is taken, if it answers one. -/
def CommClient.openx (c : CommClient) (connection : Option Socket) : Option CommClient :=
  if c.isOpen then some c
  else connection.map fun socket => { c with isOpen := true, socket := socket }

/-- What `_read_fb` answers for one byte. -/
inductive ByteRead
  /-- An error. -/
  | failed
  /-- The end of the stream. -/
  | eof
  /-- A byte. -/
  | byte (value : UInt8)

/-- `CommClient::_read_fb` for one byte. -/
def CommClient.readFb (c : CommClient) : ByteRead × CommClient :=
  if c.isOpen = false then (.failed, c)
  else match c.line.next with
    | some (byte, line) => (.byte byte, { c with line := line })
    | none =>
      match c.socket.read MAXLINE with
      | (none, socket) => (.failed, { c with socket := socket, line := LineBuffer.empty })
      | (some chunk, socket) =>
        match (LineBuffer.refill chunk).next with
        | none => (.eof, { c with socket := socket, line := LineBuffer.empty })
        | some (byte, line) => (.byte byte, { c with socket := socket, line := line })

/-- The result of `readlinex`. -/
structure LineRead where
  /-- The bytes written to the caller's buffer. -/
  bytes : Bytes
  /-- An error ended the line. -/
  failed : Bool
  /-- The connection afterwards. -/
  client : CommClient

/-- The loop of `readlinex`, with room for a number of bytes. -/
def CommClient.lineLoop : ℕ → CommClient → LineRead
  | 0, c => ⟨[], false, c⟩
  | room + 1, c =>
    match c.readFb with
    | (.failed, c) => ⟨[], true, c⟩
    | (.eof, c) => ⟨[], false, c⟩
    | (.byte byte, c) =>
      if byte = 10 then ⟨[byte], false, c⟩
      else
        let later := lineLoop room c
        { later with bytes := byte :: later.bytes }

/-- `CommClient::readlinex`. -/
def CommClient.readlinex (c : CommClient) (size : ℕ) : LineRead := c.lineLoop (size - 1)

/-- The number `readlinex` answers. -/
def LineRead.numBytes (r : LineRead) : ℤ := if r.failed then -1 else r.bytes.length

/-- An array after bytes were written to its start. -/
def overlay (buf data : Bytes) : Bytes := data ++ buf.drop data.length

/-- The caller's buffer: the terminating zero is missing behind an error. -/
def LineRead.store (r : LineRead) (buf : Bytes) : Bytes :=
  overlay buf (if r.failed then r.bytes else r.bytes ++ [0])

/-- `CommClient::readx`; none is an error. -/
def CommClient.readx (c : CommClient) (size : ℕ) : Option Bytes × CommClient :=
  if 0 < c.line.counter then
    (some (c.line.left.take size), { c with line := c.line.count size })
  else if 0 < size then
    if c.isOpen = false then (none, c)
    else match c.socket.read size with
      | (chunk, socket) => (chunk, { c with socket := socket })
  else (some [], c)

/-- `CommClient::writex`; none is an error. -/
def CommClient.writex (c : CommClient) (data : Bytes) : Option ℕ × CommClient :=
  if data = [] then (some 0, c)
  else if c.isOpen = false then (none, c)
  else match c.socket.outcomes with
    | [] => (some data.length, { c with socket := { c.socket with sent := c.socket.sent ++ data } })
    | none :: later => (some data.length,
        { c with socket := { c.socket with sent := c.socket.sent ++ data, outcomes := later } })
    | some part :: later => (none,
        { c with socket := { c.socket with
          sent := c.socket.sent ++ data.take part
          outcomes := later } })

end TinyTools.Proxy
