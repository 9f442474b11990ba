import TinyTools.Lib.CString

/-!
# Message headers and bodies

A header is the text of the lines kept so far and what the proxy read from them. Lines are
classified by a search for the field name anywhere in the line, in a fixed order; the value starts a
fixed number of bytes behind the start of the line.
-/

namespace TinyTools.Proxy

open TinyTools.Lib

/-- `HttpHeader`. -/
structure HttpHeader where
  /-- The lines kept, as they are forwarded. -/
  header : Bytes
  /-- The connection stays open after this message. -/
  persistent : Bool
  /-- No line forbade caching. -/
  cacheable : Bool
  /-- The announced length of the body, a `size_t`. -/
  bodySize : UInt64
  /-- The body is sent in chunks. -/
  chunked : Bool
deriving DecidableEq

/-- `HttpHeader::HttpHeader`. -/
def HttpHeader.new : HttpHeader where
  header := []
  persistent := true
  cacheable := true
  bodySize := 0
  chunked := false

/-- `HttpHeader::connectionK`. -/
def connectionK : Bytes := bytes "Connection:"

/-- `HttpHeader::contentLengthK`. -/
def contentLengthK : Bytes := bytes "Content-Length:"

/-- The field name of the transfer encoding. -/
def transferEncodingK : Bytes := bytes "Transfer-Encoding:"

/-- `HttpHeader::cacheControlK`. -/
def cacheControlK : Bytes := bytes "Cache-Control:"

/-- `HttpHeader::append`: the line is the string in the buffer, and `size` bytes are kept of it. -/
def HttpHeader.append (h : HttpHeader) (buf : Bytes) (size : ℕ) : HttpHeader :=
  let line := cString buf
  let kept := h.header ++ buf.take size
  if hasCase connectionK line then
    let value := line.drop connectionK.length
    if hasCase (bytes "close") value then { h with persistent := false, header := kept }
    else if hasCase (bytes "keep-alive") value then { h with persistent := true, header := kept }
    else h
  else if hasCase contentLengthK line then
    let value := line.drop contentLengthK.length
    { h with header := kept, bodySize := UInt64.ofInt (atoi value) }
  else if hasCase transferEncodingK line then
    let value := line.drop transferEncodingK.length
    if hasCase (bytes "chunked") value then { h with header := kept, chunked := true }
    else { h with header := kept }
  else if hasCase cacheControlK line then
    let value := line.drop cacheControlK.length
    if hasCase (bytes "no-cache") value then { h with cacheable := false, header := kept }
    else if hasCase (bytes "no-store") value then { h with cacheable := false, header := kept }
    else if hasCase (bytes "private") value then { h with cacheable := false, header := kept }
    else if hasCase (bytes "public") value then { h with cacheable := true, header := kept }
    else h
  else { h with header := kept }

/-- `HttpHeader::getHeader`. -/
def HttpHeader.getHeader (h : HttpHeader) : Bytes := h.header

/-- `HttpHeader::isPersistent`. -/
def HttpHeader.isPersistent (h : HttpHeader) : Bool := h.persistent

/-- `HttpHeader::isCachable`. -/
def HttpHeader.isCachable (h : HttpHeader) : Bool := h.cacheable

/-- `HttpHeader::getHeaderSize`. -/
def HttpHeader.getHeaderSize (h : HttpHeader) : ℕ := h.header.length

/-- `HttpHeader::getBodySize`. -/
def HttpHeader.getBodySize (h : HttpHeader) : UInt64 := h.bodySize

/-- `HttpHeader::isChunked`. -/
def HttpHeader.isChunked (h : HttpHeader) : Bool := h.chunked

/-- `HttpBody`. -/
structure HttpBody where
  /-- The bytes appended so far. -/
  body : Bytes
deriving DecidableEq

/-- `HttpBody::HttpBody`. -/
def HttpBody.new : HttpBody := ⟨[]⟩

/-- `HttpBody::append`. -/
def HttpBody.append (b : HttpBody) (buf : Bytes) (size : ℕ) : HttpBody := ⟨b.body ++ buf.take size⟩

/-- `HttpBody::getBody`. -/
def HttpBody.getBody (b : HttpBody) : Bytes := b.body

/-- `HttpBody::getBodySize`. -/
def HttpBody.getBodySize (b : HttpBody) : ℕ := b.body.length

end TinyTools.Proxy
