import TinyTools.Proxy.Framing

/-!
# What an exchange writes and stores

While every write delivers its whole buffer, the client of a miss is sent the header and the body
that are kept, and the client of a hit is sent what is stored. Nothing is kept whose length is not
the announced one.
-/

namespace TinyTools.Proxy

open TinyTools.Lib

/-- A connection to a client that delivers everything. -/
structure CommClient.Delivering (c : CommClient) : Prop where
  /-- It is open. -/
  isOpen : c.isOpen = true
  /-- Writes deliver all of their buffer. -/
  outcomes : ∀ outcome ∈ c.socket.outcomes, outcome = none

/-- Reading does not hinder writes. -/
theorem CommClient.Delivering.read {c c' : CommClient} (delivering : c.Delivering)
    (kept : c.Kept c') : c'.Delivering :=
  ⟨kept.isOpen.trans delivering.isOpen, by rw [kept.outcomes]; exact delivering.outcomes⟩

/-- A write says its buffer, and the next one will too. -/
theorem CommClient.Delivering.write {c : CommClient} (delivering : c.Delivering) (data : Bytes) :
    ∃ c', c.writex data = (some data.length, c') ∧ c'.Delivering ∧
      c'.socket.sent = c.socket.sent ++ data := by
  obtain ⟨c', wrote, open_, outcomes, sent, -⟩ :=
    writex_delivers delivering.isOpen delivering.outcomes data
  exact ⟨c', wrote, ⟨open_, outcomes⟩, sent⟩

/-! ## Headers that are kept -/

/-- A header of which no line was kept announces no body. -/
def HttpHeader.Backed (h : HttpHeader) : Prop := h.header = [] → h.bodySize = 0

/-- A new header announces no body. -/
theorem HttpHeader.new_backed : HttpHeader.new.Backed := fun _ => rfl

/-- The line that announces a body is kept. -/
theorem HttpHeader.Backed.append {h : HttpHeader} (backed : h.Backed) {buf : Bytes}
    {size : ℕ} (some_ : buf.take size ≠ []) : (h.append buf size).Backed := by
  have kept : ∀ header : Bytes, header = h.header ++ buf.take size → header ≠ [] := by
    rintro header rfl
    exact List.append_ne_nil_of_right_ne_nil _ some_
  unfold HttpHeader.append
  dsimp only
  split_ifs
  all_goals first
    | exact fun empty => absurd empty (kept _ rfl)
    | exact backed

/-- A line that was read starts the buffer. -/
theorem LineRead.store_eq (line : LineRead) (buf : Bytes) :
    ∃ tail, line.store buf = line.bytes ++ tail := by
  unfold store overlay
  split
  · exact ⟨_, rfl⟩
  · exact ⟨_, List.append_assoc ..⟩

/-- A line that was read is what `append` takes from the buffer. -/
theorem LineRead.take_store (line : LineRead) (buf : Bytes) :
    (line.store buf).take line.bytes.length = line.bytes := by
  obtain ⟨tail, stored⟩ := line.store_eq buf
  rw [stored, List.take_left]

/-- Every line of a header is appended to it. -/
theorem HttpHeader.Backed.headerLoop {h : HttpHeader} (backed : h.Backed) (rounds : ℕ)
    (c : CommClient) (buf : Bytes) : (headerLoop rounds c buf h).header.Backed := by
  induction rounds generalizing c buf h with
  | zero => exact backed
  | succ rounds ih =>
    unfold Proxy.headerLoop
    dsimp only
    split_ifs with ended
    · exact backed
    · apply backed.append
      rw [LineRead.take_store]
      exact LineRead.bytes_ne_nil ended
    · apply ih
      apply backed.append
      rw [LineRead.take_store]
      exact LineRead.bytes_ne_nil ended

/-! ## The hit path -/

/-- The bytes of an instance. -/
def CacheInstance.bytes (i : CacheInstance) : Bytes := i.header.getHeader ++ i.body.getBody

/-- A hit is sent what is stored. -/
theorem serveHit_spec {s : Session} (delivering : s.client.Delivering) (i : CacheInstance)
    (whole : i.header.getHeader = [] → i.body.getBody = []) :
    (serveHit s i).session.client.socket.sent = s.client.socket.sent ++ i.bytes ∧
      ((serveHit s i).ending = .again → (serveHit s i).session.client.Delivering) := by
  obtain ⟨first, wrote, delivering₁, sent₁⟩ := delivering.write i.header.getHeader
  obtain ⟨second, wrote₂, delivering₂, sent₂⟩ := delivering₁.write i.body.getBody
  unfold serveHit CacheInstance.bytes
  rw [wrote]
  dsimp only
  rw [wrote₂]
  dsimp only
  split_ifs with noHeader noBody
  · have header := List.eq_nil_of_length_eq_zero (Option.some.inj noHeader)
    refine ⟨sent₁.trans ?_, fun again => by cases again⟩
    rw [whole header, List.append_nil]
  · refine ⟨sent₂.trans ?_, fun again => by cases again⟩
    rw [sent₁, List.append_assoc]
  · refine ⟨sent₂.trans ?_, fun _ => delivering₂⟩
    rw [sent₁, List.append_assoc]

/-! ## The miss path -/

/-- A result has a property, or the exchange ends and its session does not go on. -/
def Ensures {α : Type} (property : α → Prop) : Except Early α → Prop
  | .ok result => property result
  | .error e => e.2 ≠ .again

/-- An exchange that ends early does not go on. -/
theorem ensures_closed {α : Type} {property : α → Prop} (s : Session) :
    Ensures property (.error (s, .closed)) := Ending.noConfusion

/-- An exchange that is given up does not go on. -/
theorem ensures_giveUp {α : Type} {property : α → Prop} (s : Session) :
    Ensures property (giveUp s) := ensures_closed s.close

/-- The parts of an exchange, one after the other. -/
theorem Ensures.bind {α β : Type} {property : α → Prop} {final : β → Prop}
    {first : Except Early α} {next : α → Except Early β} (holds : Ensures property first)
    (later : ∀ result, property result → Ensures final (next result)) :
    Ensures final (first >>= next) := by
  cases first with
  | ok result => exact later result holds
  | error e => exact holds

/-- What the client was sent, behind some bytes, is the body kept so far, if it is kept. -/
structure Relay.Follows (h : HttpHeader) (before : Bytes) (r : Relay) : Prop where
  /-- Writes to the client deliver everything. -/
  delivering : r.session.client.Delivering
  /-- The body kept so far was sent. -/
  sent : h.isCachable = true → r.session.client.socket.sent = before ++ r.serverBody.getBody

/-- What a turn of the loop leaves behind, if the exchange goes on. -/
def Turn.Holds (property : Relay → Prop) : Turn → Prop
  | .closed _ => True
  | .leave r => property r
  | .more r => property r

/-- Bytes that are passed on are kept as they are sent. -/
theorem Relay.Follows.pass {h : HttpHeader} {before : Bytes} {r : Relay}
    (follows : r.Follows h before) {data tail : Bytes} (content : r.session.buf = data ++ tail) :
    (r.pass h data.length).Holds (Relay.Follows h before) := by
  obtain ⟨client, open_, delivers, sent, passed⟩ :=
    pass_delivers h follows.delivering.isOpen follows.delivering.outcomes content
  have later (size : UInt64) : Relay.Follows h before
      ⟨{ r.session with client := client }, r.bodyWith h data, size⟩ := by
    refine ⟨⟨open_, delivers⟩, fun cachable => ?_⟩
    dsimp only
    rw [sent, follows.sent cachable, bodyWith, if_pos cachable, HttpBody.getBody, HttpBody.getBody,
      List.append_assoc]
  rw [passed]
  split
  · exact later _
  · exact later _

/-- One round of the body loop. -/
theorem Relay.Follows.step {h : HttpHeader} {before : Bytes} {r : Relay}
    (follows : r.Follows h before) : (r.step h).Holds (Relay.Follows h before) := by
  have with_ (server : CommClient) (buf : Bytes) : Relay.Follows h before
      { r with session := { r.session with
        server := server
        buf := buf } } :=
    ⟨follows.delivering, follows.sent⟩
  unfold Relay.step
  split_ifs
  · split
    · exact trivial
    · exact with_ _ _
    · rename_i chunk server _ _
      exact (with_ server (overlay r.session.buf chunk)).pass rfl
  · dsimp only
    split_ifs with ended
    · exact trivial
    · obtain ⟨tail, stored⟩ := (r.session.server.readlinex MAXLINE).store_eq r.session.buf
      exact (with_ _ _).pass stored
  · exact follows

/-- The body loop. -/
theorem Relay.Follows.loop {h : HttpHeader} {before : Bytes} {r : Relay}
    (follows : r.Follows h before) (rounds : ℕ) :
    Ensures (Relay.Follows h before) (relayLoop h rounds r) := by
  induction rounds generalizing r with
  | zero => exact follows
  | succ rounds ih =>
    have holds := follows.step
    unfold relayLoop
    cases round : r.step h with
    | closed s => exact ensures_closed s
    | leave r' =>
      rw [round] at holds
      exact holds
    | more r' =>
      rw [round] at holds
      exact ih holds

/-- What precedes the response concerns the server only. -/
theorem sendHeader_spec (s : Session) (address : Address) (h : HttpHeader)
    (connection : Option Socket) :
    Ensures (fun s' => s'.client = s.client) (sendHeader s address h connection) := by
  unfold sendHeader
  dsimp only
  split
  · exact ensures_giveUp _
  · exact rfl

/-- The body of the request is only read from the client. -/
theorem sendBody_spec (s : Session) (h : HttpHeader) :
    Ensures (fun result => s.client.Kept result.1.client) (sendBody s h) := by
  obtain ⟨kept, -⟩ := s.client.readx_spec (show 0 < MAXLINE - 1 by decide)
  unfold sendBody
  split_ifs
  · split
    · exact ensures_giveUp _
    · rename_i chunk client read
      rw [read] at kept
      dsimp only
      split
      · exact ensures_giveUp _
      · exact kept
  · exact .rfl

/-- The header of the response is only read from the server. -/
theorem readResponse_spec (s : Session) :
    Ensures (fun result => result.1.client = s.client ∧ result.2.1.Backed)
      (readResponse s) := by
  unfold readResponse
  dsimp only
  by_cases ended : (s.server.readlinex MAXLINE).numBytes ≤ 0
  · rw [if_pos ended]
    exact ensures_giveUp _
  · rw [if_neg ended]
    have some_ := LineRead.bytes_ne_nil ended
    split
    · exact nofun
    · split
      · exact ensures_giveUp _
      · refine ⟨rfl, HttpHeader.Backed.headerLoop ?_ _ _ _⟩
        exact HttpHeader.new_backed.append (by rw [LineRead.take_store]; exact some_)

/-- The client is sent the header and then the body. -/
theorem relayResponse_spec {s : Session} (delivering : s.client.Delivering) (h : HttpHeader) :
    Ensures (fun r => r.Follows h (s.client.socket.sent ++ h.getHeader) ∧
      (h.isChunked = false → h.getBodySize = 0 → r.serverBody = HttpBody.new))
        (relayResponse h s) := by
  obtain ⟨client, wrote, delivering', sent⟩ := delivering.write h.getHeader
  have start : (Relay.start h { s with client := client }).Follows h
      (s.client.socket.sent ++ h.getHeader) :=
    ⟨delivering', fun _ => sent.trans (List.append_nil _).symm⟩
  have follows := start.loop (s.server.unread.length + 1)
  unfold relayResponse
  rw [wrote]
  show Ensures _ (relayBody h { s with client := client })
  by_cases empty : h.isChunked = false ∧ h.getBodySize = 0
  · have left : relayBody h { s with client := client } =
        .ok (Relay.start h { s with client := client }) := by
      rw [relayBody, relayLoop, Relay.step_done empty.1 empty.2]
    rw [left]
    exact ⟨start, fun _ _ => rfl⟩
  · unfold relayBody
    revert follows
    cases relayLoop h (s.server.unread.length + 1) (Relay.start h { s with client := client }) with
    | ok r => exact fun follows => ⟨follows, fun plain none_ => absurd ⟨plain, none_⟩ empty⟩
    | error e => exact id

/-- A response that is stored was not sent in chunks, and its body has the announced length. -/
theorem keep_some {h : HttpHeader} {code : ℤ} {body : HttpBody} {i : CacheInstance}
    (kept : keep h code body = some i) :
    i = ⟨h, body⟩ ∧ h.isCachable = true ∧ h.isChunked = false ∧
      (h.getBodySize > 0 → body.getBodySize = h.getBodySize.toNat) := by
  unfold keep at kept
  split_ifs at kept with cachable wrong plain
  obtain ⟨cachable, -⟩ := cachable
  refine ⟨(Option.some.inj kept).symm, cachable, plain, fun announced => ?_⟩
  by_contra other
  exact wrong ⟨announced, Ne.symm other⟩

/-- What an instance that is stored looks like. -/
structure CacheInstance.Whole (i : CacheInstance) : Prop where
  /-- The response was not sent in chunks. -/
  plain : i.header.isChunked = false
  /-- The body has the announced length. -/
  length : i.body.getBodySize = i.header.getBodySize.toNat
  /-- An empty header announces no body. -/
  backed : i.header.Backed

/-- What an exchange leaves behind: a connection that delivers if it goes on, and an instance that
was sent to the client if one is stored. -/
structure Exchange.Sound (before : Bytes) (exchange : Exchange) : Prop where
  /-- A session that goes on can write to its client. -/
  delivering : exchange.ending = .again → exchange.session.client.Delivering
  /-- What is stored was sent. -/
  stored : ∀ i, exchange.stored = some i →
    exchange.session.client.socket.sent = before ++ i.bytes ∧ i.Whole

/-- The end of an exchange. -/
theorem finish_sound {h : HttpHeader} {before : Bytes} {r : Relay}
    (follows : r.Follows h (before ++ h.getHeader)) (backed : h.Backed)
    (empty : h.isChunked = false → h.getBodySize = 0 → r.serverBody = HttpBody.new) (code : ℤ)
    (clientClose : Bool) : (finish h code clientClose r).Sound before := by
  have stored (i : CacheInstance) (kept : keep h code r.serverBody = some i) :
      r.session.client.socket.sent = before ++ i.bytes ∧ i.Whole := by
    obtain ⟨rfl, cachable, plain, length⟩ := keep_some kept
    refine ⟨?_, plain, ?_, backed⟩
    · rw [follows.sent cachable, CacheInstance.bytes, List.append_assoc]
    · by_cases announced : h.getBodySize > 0
      · exact length announced
      · have none_ := UInt64.le_zero_iff.mp (UInt64.not_lt.mp announced)
        dsimp only
        rw [empty plain none_, none_]
        rfl
  unfold finish
  dsimp only
  split_ifs
  · exact ⟨nofun, stored⟩
  · exact ⟨nofun, stored⟩
  · exact ⟨fun _ => follows.delivering, stored⟩

/-- The parts of the miss path, one after the other. -/
theorem forwardParts_sound {s : Session} (delivering : s.client.Delivering) (address : Address)
    (h : HttpHeader) (connection : Option Socket) :
    Ensures (Exchange.Sound s.client.socket.sent) (forwardParts s address h connection) := by
  refine (sendHeader_spec s address h connection).bind fun s₁ client₁ => ?_
  refine (sendBody_spec s₁ h).bind fun body client₂ => ?_
  obtain ⟨s₂, ended⟩ := body
  refine (readResponse_spec s₂).bind fun response read => ?_
  obtain ⟨s₃, serverHeader, code⟩ := response
  obtain ⟨client₃, backed⟩ := read
  dsimp only at client₂ client₃ backed ⊢
  have delivering₃ : s₃.client.Delivering := by
    rw [client₃]
    exact (client₁ ▸ delivering).read client₂
  have sent₃ : s₃.client.socket.sent = s.client.socket.sent := by
    rw [client₃, client₂.sent, client₁]
  refine (relayResponse_spec delivering₃ serverHeader).bind fun r relayed => ?_
  obtain ⟨follows, empty⟩ := relayed
  rw [sent₃] at follows
  exact finish_sound follows backed empty code _

/-- The miss path. -/
theorem forward_sound {s : Session} (delivering : s.client.Delivering) (address : Address)
    (h : HttpHeader) (connection : Option Socket) :
    (forward s address h connection).Sound s.client.socket.sent := by
  have parts := forwardParts_sound delivering address h connection
  unfold forward
  cases ran : forwardParts s address h connection with
  | ok exchange =>
    rw [ran] at parts
    exact parts
  | error early =>
    rw [ran] at parts
    exact ⟨fun again => absurd again parts, fun i stored => by cases stored⟩

/-- The assertion on the size of such an instance holds. -/
theorem CacheInstance.Whole.getTotSize {i : CacheInstance} (whole : i.Whole) :
    i.getTotSize = .ok (UInt64.ofNat (i.header.getHeaderSize + i.body.getBodySize)) := by
  have same : UInt64.ofNat i.body.getBodySize = i.header.getBodySize := by
    rw [whole.length, UInt64.ofNat_toNat]
  have asserts : i.Asserts := Or.inl (by rw [same])
  rw [CacheInstance.getTotSize, if_pos asserts, totSize, UInt64.ofNat_add, same]

/-- The body of such an instance is empty when its header is. -/
theorem CacheInstance.Whole.body_nil {i : CacheInstance} (whole : i.Whole)
    (empty : i.header.getHeader = []) : i.body.getBody = [] := by
  have none_ : i.header.getBodySize = 0 := whole.backed empty
  have length := whole.length
  rw [none_] at length
  exact List.eq_nil_of_length_eq_zero length

end TinyTools.Proxy
