import TinyTools.Proxy.Address
import TinyTools.Proxy.Cache
import TinyTools.Proxy.Reading

/-!
# One session

`minion` serves one client: it reads a request, answers it from the cache or through the server it
names, and goes on while both connections may stay open. Each loop of the source is a loop with a
bound on its rounds that the unread bytes give; arrays are kept with what earlier lines left in
them.
-/

namespace TinyTools.Proxy

open TinyTools.Lib

/-- The connections and the arrays of a session. -/
structure Session where
  /-- The connection to the client. -/
  client : CommClient
  /-- The connection to the server. -/
  server : CommClient
  /-- `buf`. -/
  buf : Bytes
  /-- `url`. -/
  url : Bytes
  /-- `resp`. -/
  resp : Bytes

/-- Both connections are closed. -/
def Session.close (s : Session) : Session :=
  { s with client := s.client.closex, server := s.server.closex }

/-- How an exchange leaves its session. -/
inductive Ending
  /-- The next request is read. -/
  | again
  /-- The connections are closed. -/
  | closed
  /-- The assertion on the status code fails. -/
  | aborted
deriving DecidableEq

/-! ## Header lines -/

/-- The result of reading header lines. -/
structure HeaderRead where
  /-- What the last `readlinex` answered. -/
  numBytes : ℤ
  /-- The connection. -/
  client : CommClient
  /-- `buf`. -/
  buf : Bytes
  /-- The header with the lines appended. -/
  header : HttpHeader

/-- The loop that appends lines up to an empty one. -/
def headerLoop : ℕ → CommClient → Bytes → HttpHeader → HeaderRead
  | 0, c, buf, h => ⟨0, c, buf, h⟩
  | rounds + 1, c, buf, h =>
    let line := c.readlinex MAXLINE
    let buf := line.store buf
    if line.numBytes ≤ 0 then ⟨line.numBytes, line.client, buf, h⟩
    else
      let h := h.append buf line.bytes.length
      if cString buf = bytes "\r\n" then ⟨line.numBytes, line.client, buf, h⟩
      else headerLoop rounds line.client buf h

/-- Every round takes a byte, so that many rounds are enough. -/
def readHeader (c : CommClient) (buf : Bytes) (h : HttpHeader) : HeaderRead :=
  headerLoop (c.unread.length + 1) c buf h

/-! ## The request -/

/-- What reading a request ends with. -/
inductive Incoming
  /-- No request is accepted, and the session is over. -/
  | closed (s : Session)
  /-- A request with its address and header. -/
  | request (s : Session) (address : Address) (header : HttpHeader)

/-- The start of the loop: the request line and the header. -/
def readRequest (s : Session) : Incoming :=
  let line := s.client.readlinex MAXLINE
  let s := { s with client := line.client, buf := line.store s.buf }
  if line.numBytes ≤ 0 then .closed s.close
  else
    let s := { s with buf := s.buf.set (MAXLINE - 1) 0 }
    let s := { s with url := overlay s.url (cString s.buf) }
    match parseAddress s.url with
    | none => .closed s.close
    | some address =>
      let s := { s with url := cutUrl s.url }
      if address.command = bytes "CONNECT" then .closed s.close
      else
        let read := readHeader s.client s.buf HttpHeader.new
        .request { s with client := read.client, buf := read.buf } address read.header

/-- The request may be answered from the cache. -/
def eligible (clientHeader : HttpHeader) : Bool :=
  clientHeader.getBodySize ≤ 0 && clientHeader.isCachable

/-! ## The hit path -/

/-- The result of an exchange. -/
structure Exchange where
  /-- The session. -/
  session : Session
  /-- The instance that is put into the cache. -/
  stored : Option CacheInstance
  /-- How it ends. -/
  ending : Ending

/-- Answer from the cache: a write that answers zero ends the session. -/
def serveHit (s : Session) (i : CacheInstance) : Exchange :=
  let (answer, client) := s.client.writex i.header.getHeader
  let s := { s with client := client }
  if answer = some 0 then ⟨s.close, none, .closed⟩
  else
    let (answer, client) := s.client.writex i.body.getBody
    let s := { s with client := client }
    if answer = some 0 then ⟨s.close, none, .closed⟩ else ⟨s, none, .again⟩

/-! ## The miss path -/

/-- An exchange that ends early. -/
abbrev Early := Session × Ending

/-- Close both connections and end early. -/
def giveUp {α : Type} (s : Session) : Except Early α := .error (s.close, .closed)

/-- The request line that is sent to the server. -/
def requestLine (address : Address) : Bytes :=
  address.command ++ bytes " " ++ address.file ++ bytes " " ++ address.version ++ bytes "\r\n"

/-- Connect to the server and send it the request line and the header. -/
def sendHeader (s : Session) (address : Address) (clientHeader : HttpHeader)
    (connection : Option Socket) : Except Early Session :=
  let server := s.server.setHostPort address.host address.port
  match server.openx connection with
  | none => giveUp { s with server := server }
  | some server =>
    let server := (server.writex (requestLine address)).2
    let server := (server.writex clientHeader.getHeader).2
    .ok { s with server := server }

/-- Send the body of the request: one read of the client's bytes. The flag says whether the client
has ended its stream. What is left of `clientBodySize` is not used again. -/
def sendBody (s : Session) (clientHeader : HttpHeader) : Except Early (Session × Bool) :=
  if clientHeader.getBodySize > 0 then
    match s.client.readx (MAXLINE - 1) with
    | (none, client) => giveUp { s with client := client }
    | (some chunk, client) =>
      let s := { s with client := client, buf := overlay s.buf chunk }
      match s.server.writex (s.buf.take chunk.length) with
      | (none, server) => giveUp { s with server := server }
      | (some _, server) => .ok ({ s with server := server }, chunk.isEmpty)
  else .ok (s, false)

/-- Read the status line and the header of the response. -/
def readResponse (s : Session) : Except Early (Session × HttpHeader × ℤ) :=
  let line := s.server.readlinex MAXLINE
  let s := { s with server := line.client, buf := line.store s.buf }
  if line.numBytes ≤ 0 then giveUp s
  else
    let serverHeader := HttpHeader.new.append s.buf line.bytes.length
    let s := { s with buf := s.buf.set (MAXLINE - 1) 0 }
    let s := { s with resp := overlay s.resp (cString s.buf) }
    let code := do
      let first ← strtokAt (bytes " ") s.resp 0
      strtokAt (bytes " ") first.memory first.next
    match code with
    | none => .error (s, .aborted)
    | some code =>
      let s := { s with resp := code.memory }
      let codeNum := atoi (cString (s.resp.drop code.start))
      let read := readHeader s.server s.buf serverHeader
      let s := { s with server := read.client, buf := read.buf }
      if read.numBytes < 0 then giveUp s else .ok (s, read.header, codeNum)

/-- The variables of the body loop. -/
structure Relay where
  /-- The session. -/
  session : Session
  /-- `serverBody`. -/
  serverBody : HttpBody
  /-- `serverBodySize`. -/
  serverBodySize : UInt64

/-- What one round of the body loop does. -/
inductive Turn
  /-- Both connections are closed and the exchange ends. -/
  | closed (s : Session)
  /-- The loop is left. -/
  | leave (r : Relay)
  /-- Another round follows. -/
  | more (r : Relay)

/-- Take a number of bytes that were read into `buf` from the remaining size, keep them and send
them to the client. -/
def Relay.pass (h : HttpHeader) (r : Relay) (numBytes : ℕ) : Turn :=
  let size := if r.serverBodySize > 0 then r.serverBodySize - UInt64.ofNat numBytes
    else r.serverBodySize
  let body := if h.isCachable then r.serverBody.append r.session.buf numBytes else r.serverBody
  match r.session.client.writex (r.session.buf.take numBytes) with
  | (none, client) => .closed (Session.close { r.session with client := client })
  | (some _, client) =>
    let r := ⟨{ r.session with client := client }, body, size⟩
    if h.isChunked ∧ cString r.session.buf = bytes "\r\n" then .leave r else .more r

/-- One round of the body loop: bytes while some of the announced length remains, otherwise a line
of a chunked body. -/
def Relay.step (h : HttpHeader) (r : Relay) : Turn :=
  if r.serverBodySize > 0 then
    match r.session.server.readx (MAXLINE - 1) with
    | (none, server) => .closed (Session.close { r.session with server := server })
    | (some [], server) => .leave { r with session := { r.session with server := server } }
    | (some chunk, server) =>
      Relay.pass h { r with session := { r.session with
        server := server
        buf := overlay r.session.buf chunk } } chunk.length
  else if h.isChunked then
    let line := r.session.server.readlinex MAXLINE
    let s := { r.session with server := line.client, buf := line.store r.session.buf }
    if line.numBytes ≤ 0 then .closed s.close
    else Relay.pass h { r with session := s } line.bytes.length
  else .leave r

/-- The body loop. -/
def relayLoop (h : HttpHeader) : ℕ → Relay → Except Early Relay
  | 0, r => .ok r
  | rounds + 1, r =>
    match r.step h with
    | .closed s => .error (s, .closed)
    | .leave r => .ok r
    | .more r => relayLoop h rounds r

/-- The variables before the first round. -/
def Relay.start (h : HttpHeader) (s : Session) : Relay := ⟨s, HttpBody.new, h.getBodySize⟩

/-- Every round takes a byte from the server, so that many rounds are enough. -/
def relayBody (h : HttpHeader) (s : Session) : Except Early Relay :=
  relayLoop h (s.server.unread.length + 1) (Relay.start h s)

/-- Send the header of the response to the client, and then its body. -/
def relayResponse (h : HttpHeader) (s : Session) : Except Early Relay :=
  match s.client.writex h.getHeader with
  | (none, client) => giveUp { s with client := client }
  | (some _, client) => relayBody h { s with client := client }

/-- The instance that is kept of a response. -/
def keep (h : HttpHeader) (codeNum : ℤ) (serverBody : HttpBody) : Option CacheInstance :=
  if h.isCachable ∧ codeNum = 200 then
    if h.getBodySize > 0 ∧ h.getBodySize.toNat ≠ serverBody.getBodySize then none
    else if h.isChunked = false then some ⟨h, serverBody⟩
    else none
  else none

/-- The end of an exchange: the session goes on when the client, and behind it the server, may stay
connected. -/
def finish (h : HttpHeader) (codeNum : ℤ) (clientClose : Bool) (r : Relay) : Exchange :=
  let stored := keep h codeNum r.serverBody
  if clientClose || h.isChunked then ⟨r.session.close, stored, .closed⟩
  else if h.isPersistent = false then ⟨r.session.close, stored, .closed⟩
  else ⟨r.session, stored, .again⟩

/-- The miss path, until something ends it early. `connection` is the socket a new connection to the
server would get. -/
def forwardParts (s : Session) (address : Address) (clientHeader : HttpHeader)
    (connection : Option Socket) : Except Early Exchange := do
  let s ← sendHeader s address clientHeader connection
  let (s, ended) ← sendBody s clientHeader
  let (s, serverHeader, codeNum) ← readResponse s
  let r ← relayResponse serverHeader s
  return finish serverHeader codeNum (!clientHeader.isPersistent || ended) r

/-- The miss path. -/
def forward (s : Session) (address : Address) (clientHeader : HttpHeader)
    (connection : Option Socket) : Exchange :=
  match forwardParts s address clientHeader connection with
  | .ok exchange => exchange
  | .error (s, ending) => ⟨s, none, ending⟩

end TinyTools.Proxy
