import TinyTools.Proxy.Splitting

/-!
# How header lines are filed

`HttpHeader::append` files a line under the first of four fields whose key occurs anywhere in it,
and reads a value from a fixed place behind the start of the line. What a line does to each
member of the header follows from the field it is filed under, its value and the member itself.
-/

namespace TinyTools.Proxy

open TinyTools.Lib

/-- A line is appended from the start of a buffer that holds it and its terminating zero. -/
def HttpHeader.appendLine (h : HttpHeader) (line : Bytes) : HttpHeader :=
  h.append (line ++ [0]) line.length

/-- Lines are appended one after the other. -/
def HttpHeader.appendLines (h : HttpHeader) (lines : List Bytes) : HttpHeader :=
  lines.foldl appendLine h

/-! ## Fields -/

/-- The fields a line is searched for. -/
inductive Field
  /-- `Connection`. -/
  | connection
  /-- `Content-Length`. -/
  | contentLength
  /-- `Transfer-Encoding`. -/
  | transferEncoding
  /-- `Cache-Control`. -/
  | cacheControl
deriving DecidableEq

/-- The text that is searched for. -/
def Field.key : Field → Bytes
  | connection => connectionK
  | contentLength => contentLengthK
  | transferEncoding => transferEncodingK
  | cacheControl => cacheControlK

/-- The field under which a line is filed: the first one whose key occurs in it. -/
def filed (line : Bytes) : Option Field :=
  [.connection, .contentLength, .transferEncoding, .cacheControl].find? fun field : Field =>
    hasCase field.key (cString line)

/-- The text in which the value is looked for. -/
def Field.value (field : Field) (line : Bytes) : Bytes := (cString line).drop field.key.length

/-- The values of `Connection` that are known. -/
def connectionValue (value : Bytes) : Option Bool :=
  if hasCase (bytes "close") value then some false
  else if hasCase (bytes "keep-alive") value then some true
  else none

/-- The directives of `Cache-Control` that are known: a restriction comes first. -/
def cacheValue (value : Bytes) : Option Bool :=
  if hasCase (bytes "no-cache") value then some false
  else if hasCase (bytes "no-store") value then some false
  else if hasCase (bytes "private") value then some false
  else if hasCase (bytes "public") value then some true
  else none

/-- The line is kept in the text of the header. -/
def isKept (line : Bytes) : Bool :=
  match filed line with
  | some .connection => (connectionValue (Field.connection.value line)).isSome
  | some .cacheControl => (cacheValue (Field.cacheControl.value line)).isSome
  | _ => true

/-! ## What a line does -/

/-- What the buffer holds behind the line is not appended. -/
theorem HttpHeader.append_line (h : HttpHeader) (line rest : Bytes) :
    h.append (line ++ 0 :: rest) line.length = h.appendLine line := by
  unfold appendLine append
  rw [cString_line line rest, cString_line line [], List.take_left, List.take_left]

/-- What a line does to each member of the header. -/
theorem HttpHeader.appendLine_eq (h : HttpHeader) (line : Bytes) :
    h.appendLine line =
      { header := if isKept line then h.header ++ line else h.header
        persistent :=
          if filed line = some .connection then
            (connectionValue (Field.connection.value line)).getD h.persistent
          else h.persistent
        cacheable :=
          if filed line = some .cacheControl then
            (cacheValue (Field.cacheControl.value line)).getD h.cacheable
          else h.cacheable
        bodySize :=
          if filed line = some .contentLength then
            UInt64.ofInt (atoi (Field.contentLength.value line))
          else h.bodySize
        chunked :=
          if filed line = some .transferEncoding then
            h.chunked || hasCase (bytes "chunked") (Field.transferEncoding.value line)
          else h.chunked } := by
  have text : cString (line ++ [0]) = cString line := cString_line line []
  have kept : (line ++ [0]).take line.length = line := List.take_left
  unfold appendLine append isKept
  rw [text, kept]
  by_cases connection : hasCase connectionK (cString line) = true
  · have file : filed line = some .connection := by simp [filed, Field.key, connection]
    rw [file]
    simp only [connection, if_true, connectionValue, Field.value, Field.key]
    split_ifs with close alive
    · simp [close]
    · simp [close, alive]
    · simp [close, alive]
  by_cases length : hasCase contentLengthK (cString line) = true
  · have file : filed line = some .contentLength := by
      simp [filed, Field.key, connection, length]
    rw [file]
    simp only [connection, length, Bool.false_eq_true, if_true, if_false]
    rfl
  by_cases encoding : hasCase transferEncodingK (cString line) = true
  · have file : filed line = some .transferEncoding := by
      simp [filed, Field.key, connection, length, encoding]
    rw [file]
    by_cases chunked : hasCase (bytes "chunked") (Field.transferEncoding.value line) = true
    · have found := chunked
      unfold Field.value Field.key at found
      simp [connection, length, encoding, found, chunked]
    · have missed := chunked
      unfold Field.value Field.key at missed
      simp [connection, length, encoding, missed, chunked]
  by_cases cache : hasCase cacheControlK (cString line) = true
  · have file : filed line = some .cacheControl := by
      simp [filed, Field.key, connection, length, encoding, cache]
    rw [file]
    simp only [connection, length, encoding, cache, Bool.false_eq_true, if_true, if_false,
      cacheValue, Field.value, Field.key]
    split_ifs with noCache noStore private_ public_
    · simp [noCache]
    · simp [noCache, noStore]
    · simp [noCache, noStore, private_]
    · simp [noCache, noStore, private_, public_]
    · simp [noCache, noStore, private_, public_]
  · have file : filed line = none := by
      simp [filed, Field.key, connection, length, encoding, cache]
    rw [file]
    simp only [connection, length, encoding, cache, Bool.false_eq_true, if_false]
    rfl

/-! ## The lines that are read -/

/-- A line that is answered was read without an error. -/
theorem LineRead.whole {line : LineRead} (some_ : ¬ line.numBytes ≤ 0) : line.failed = false := by
  by_contra failed
  unfold numBytes at some_
  rw [if_pos (Bool.eq_true_of_not_eq_false failed)] at some_
  exact some_ (by decide)

/-- A line that `readlinex` answers is the first one of the unread bytes. -/
theorem CommClient.readlinex_first {c : CommClient} (some_ : ¬ (c.readlinex MAXLINE).numBytes ≤ 0) :
    splitLines MAXLINE c.unread = (c.readlinex MAXLINE).bytes ::
      splitLines MAXLINE (c.readlinex MAXLINE).client.unread := by
  have chops := takeLine_chops_of (by decide : 2 ≤ MAXLINE)
  have taken := LineRead.bytes_ne_nil some_
  have whole : (c.lineLoop (MAXLINE - 1)).failed = false := LineRead.whole some_
  have line : (c.readlinex MAXLINE).bytes = _ := c.lineLoop_bytes (MAXLINE - 1) whole
  have unread : (c.readlinex MAXLINE).client.unread = _ := c.unread_lineLoop (MAXLINE - 1) whole
  have stream : c.unread ≠ [] := by
    intro empty
    rw [line, empty] at taken
    exact taken rfl
  rw [line, unread]
  exact chops.chop_cons stream

/-- What a line leaves in the buffer is the line, its zero and older bytes. -/
theorem LineRead.append_store {line : LineRead} (some_ : ¬ line.numBytes ≤ 0) (buf : Bytes)
    (h : HttpHeader) : h.append (line.store buf) line.bytes.length = h.appendLine line.bytes := by
  unfold store overlay
  rw [whole some_, if_neg Bool.false_ne_true, List.append_assoc]
  exact h.append_line line.bytes _

/-- The lines of a header are the first ones of the unread bytes, and all of them are appended. -/
theorem headerLoop_lines (rounds : ℕ) (c : CommClient) (buf : Bytes) (h : HttpHeader) :
    ∃ lines, lines <+: splitLines MAXLINE c.unread ∧
      (headerLoop rounds c buf h).header = h.appendLines lines := by
  induction rounds generalizing c buf h with
  | zero => exact ⟨[], List.nil_prefix, rfl⟩
  | succ rounds ih =>
    unfold headerLoop
    dsimp only
    by_cases ended : (c.readlinex MAXLINE).numBytes ≤ 0
    · rw [if_pos ended]
      exact ⟨[], List.nil_prefix, rfl⟩
    · rw [if_neg ended, LineRead.append_store ended, CommClient.readlinex_first ended]
      by_cases empty : cString ((c.readlinex MAXLINE).store buf) = bytes "\r\n"
      · rw [if_pos empty]
        exact ⟨[(c.readlinex MAXLINE).bytes],
          List.cons_prefix_cons.mpr ⟨rfl, List.nil_prefix⟩, rfl⟩
      · rw [if_neg empty]
        obtain ⟨lines, first, appended⟩ := ih (c.readlinex MAXLINE).client
          ((c.readlinex MAXLINE).store buf) (h.appendLine (c.readlinex MAXLINE).bytes)
        exact ⟨(c.readlinex MAXLINE).bytes :: lines,
          List.cons_prefix_cons.mpr ⟨rfl, first⟩, appended⟩

/-- Lines at the front of a stream are lines as they are read. -/
theorem areLines_prefix {lines : List Bytes} {stream : Bytes}
    (front : lines <+: splitLines MAXLINE stream) : AreLines MAXLINE lines :=
  (splitLines_areLines (by decide) stream).sublist front.sublist

/-- The header of a request consists of lines from the client behind the request line. -/
theorem readRequest_lines {s s' : Session} {address : Address} {h : HttpHeader}
    (read : readRequest s = .request s' address h) :
    ∃ lines, lines <+: splitLines MAXLINE (s.client.readlinex MAXLINE).client.unread ∧
      AreLines MAXLINE lines ∧ h = HttpHeader.new.appendLines lines := by
  unfold readRequest at read
  dsimp only at read
  split at read
  · cases read
  split at read
  · cases read
  split at read
  · cases read
  obtain ⟨-, -, rfl⟩ := Incoming.request.inj read
  obtain ⟨lines, first, appended⟩ := headerLoop_lines _ _ _ _
  exact ⟨lines, first, areLines_prefix first, appended⟩

/-- The header of a response consists of lines from the server, the status line among them. -/
theorem readResponse_lines {s s' : Session} {h : HttpHeader} {codeNum : ℤ}
    (read : readResponse s = .ok (s', h, codeNum)) :
    ∃ lines, lines <+: splitLines MAXLINE s.server.unread ∧ AreLines MAXLINE lines ∧
      h = HttpHeader.new.appendLines lines := by
  unfold readResponse at read
  dsimp only at read
  by_cases ended : (s.server.readlinex MAXLINE).numBytes ≤ 0
  · rw [if_pos ended] at read
    cases read
  rw [if_neg ended, LineRead.append_store ended] at read
  split at read
  · cases read
  split at read
  · cases read
  obtain ⟨lines, first, appended⟩ := headerLoop_lines
    ((s.server.readlinex MAXLINE).client.unread.length + 1) (s.server.readlinex MAXLINE).client
      (((s.server.readlinex MAXLINE).store s.buf).set (MAXLINE - 1) 0)
      (HttpHeader.new.appendLine (s.server.readlinex MAXLINE).bytes)
  have header := congrArg (fun result : Session × HttpHeader × ℤ => result.2.1)
    (Except.ok.inj read)
  have front : (s.server.readlinex MAXLINE).bytes :: lines <+:
      splitLines MAXLINE s.server.unread := by
    rw [CommClient.readlinex_first ended]
    exact List.cons_prefix_cons.mpr ⟨rfl, first⟩
  exact ⟨_, front, areLines_prefix front, header.symm.trans appended⟩

end TinyTools.Proxy
