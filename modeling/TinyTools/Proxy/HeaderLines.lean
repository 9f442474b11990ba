import TinyTools.Proxy.FieldNames

/-!
# The lines of a header

What the lines of a header say by their names, and what `minion` makes of them: the length of the
body is the number in the last line that is filed as a length, and the body is taken for chunked
when a line that is filed as a transfer coding mentions it. The two agree on a header none of whose
lines is filed under another name than its own.
-/

namespace TinyTools.Proxy

open TinyTools.Lib

/-! ## What the lines say -/

/-- The line announces a chunked body. -/
def IsChunkedField (line : Bytes) : Prop :=
  IsField .transferEncoding line ∧ ∃ word, word.map toLower = bytes "chunked" ∧
    IsPadded word (fieldText line)

/-- A header announces a length: some line of that name does, and no other line of that name says
something else. -/
structure Announces (length : ℕ) (lines : List Bytes) : Prop where
  /-- There is such a line. -/
  some_ : ∃ line ∈ lines, IsField .contentLength line
  /-- All of them announce the length. -/
  all : ∀ line ∈ lines, IsField .contentLength line → IsLengthField length line

/-- A header announces a chunked body, and no length. -/
structure AnnouncesChunks (lines : List Bytes) : Prop where
  /-- A line announces it. -/
  some_ : ∃ line ∈ lines, IsChunkedField line
  /-- No line announces a length. -/
  none_ : ∀ line ∈ lines, ¬ IsField .contentLength line

/-! ## What is made of them -/

/-- The number that is taken for the length of the body: the one in the last line that is filed as a
length, or zero. -/
def readLength (lines : List Bytes) : UInt64 :=
  match (lines.filter fun line => filed line = some .contentLength).getLast? with
  | none => 0
  | some line => UInt64.ofInt (atoi (Field.contentLength.value line))

/-- The body is taken for chunked: a line that is filed as a transfer coding mentions it. -/
def readChunked (lines : List Bytes) : Bool :=
  lines.any fun line => filed line = some .transferEncoding &&
    hasCase (bytes "chunked") (Field.transferEncoding.value line)

/-- The header made of some lines answers these. -/
theorem appendLines_reads (lines : List Bytes) :
    (HttpHeader.new.appendLines lines).getBodySize = readLength lines ∧
      (HttpHeader.new.appendLines lines).isChunked = readChunked lines := by
  induction lines using List.reverseRecOn with
  | nil => exact ⟨rfl, rfl⟩
  | append_singleton lines line ih =>
    rw [HttpHeader.appendLines_concat, HttpHeader.appendLine_eq]
    constructor
    · change (if _ then _ else HttpHeader.getBodySize _) = _
      rw [ih.1]
      unfold readLength
      by_cases file : filed line = some .contentLength
      · simp [List.filter_append, file]
      · simp [List.filter_append, file]
    · change (if _ then HttpHeader.isChunked _ || _ else HttpHeader.isChunked _) = _
      rw [ih.2]
      unfold readChunked
      by_cases file : filed line = some .transferEncoding
      · simp [file]
      · simp [file]

/-! ## Lines as they are read -/

/-- The lines up to the first empty one. -/
def upToEmpty (lines : List Bytes) : List Bytes := lines.take (lines.idxOf crlf + 1)

/-- The lines of a response in front of its body: the status line and those of the header. -/
def responseLines (stream : Bytes) : List Bytes :=
  (splitLines MAXLINE stream).take 1 ++ upToEmpty ((splitLines MAXLINE stream).drop 1)

/-- Lines were read from an open connection and appended to a new header: some first ones, and then
all up to an empty one. -/
def BehindLines (lines : List Bytes) (c : CommClient) (h : HttpHeader) : Prop :=
  ∃ c₀ buf first, c₀.isOpen = true ∧ lines = first ++ upToEmpty (splitLines MAXLINE c₀.unread) ∧
    0 < (readHeader c₀ buf (HttpHeader.new.appendLines first)).numBytes ∧
      (readHeader c₀ buf (HttpHeader.new.appendLines first)).client = c ∧
        (readHeader c₀ buf (HttpHeader.new.appendLines first)).header = h

/-- Only an empty line is read as one. -/
theorem cString_eq_crlf_iff {text line : Bytes} (part : line ∈ splitLines MAXLINE text) :
    cString line = crlf ↔ line = crlf := by
  constructor
  · intro empty
    obtain ⟨tail, whole⟩ : crlf <+: line := empty ▸ List.takeWhile_prefix _
    have newline := (splitLines_areLines (by decide : 2 ≤ MAXLINE) text).newline line part
    cases tail with
    | nil => rw [← whole, List.append_nil]
    | cons byte tail =>
      rw [← whole] at newline
      exact absurd (List.mem_cons_of_mem _ List.mem_cons_self) newline
  · rintro rfl
    decide

/-- A line that is read is stored as an empty one exactly when it is empty. -/
theorem CommClient.readlinex_empty_iff {c : CommClient}
    (some_ : ¬ (c.readlinex MAXLINE).numBytes ≤ 0) (buf : Bytes) :
    cString ((c.readlinex MAXLINE).store buf) = bytes "\r\n" ↔
      (c.readlinex MAXLINE).bytes = crlf := by
  have part : (c.readlinex MAXLINE).bytes ∈ splitLines MAXLINE c.unread := by
    rw [readlinex_first some_]
    exact List.mem_cons_self
  have stored : (c.readlinex MAXLINE).store buf = (c.readlinex MAXLINE).bytes ++
      0 :: buf.drop ((c.readlinex MAXLINE).bytes ++ [0]).length := by
    unfold LineRead.store overlay
    rw [LineRead.whole some_, if_neg Bool.false_ne_true, List.append_assoc]
    rfl
  rw [stored, cString_line]
  exact cString_eq_crlf_iff part

/-- A header that ends consists of the lines up to the first empty one, and the rest of the stream
is still to be read. -/
theorem headerLoop_upToEmpty {rounds : ℕ} {c : CommClient} {buf : Bytes} {h : HttpHeader}
    (ended : 0 < (headerLoop rounds c buf h).numBytes) :
    (headerLoop rounds c buf h).header =
        h.appendLines (upToEmpty (splitLines MAXLINE c.unread)) ∧
      c.unread = (upToEmpty (splitLines MAXLINE c.unread)).flatten ++
        (headerLoop rounds c buf h).client.unread := by
  induction rounds generalizing c buf h with
  | zero => exact absurd ended (lt_irrefl 0)
  | succ rounds ih =>
    unfold headerLoop at ended ⊢
    dsimp only at ended ⊢
    by_cases over_ : (c.readlinex MAXLINE).numBytes ≤ 0
    · rw [if_pos over_] at ended
      exact absurd ended (not_lt.mpr over_)
    obtain ⟨-, split, -⟩ := c.lineLoop_spec (MAXLINE - 1)
    have first : c.unread = (c.readlinex MAXLINE).bytes ++ (c.readlinex MAXLINE).client.unread :=
      split
    rw [if_neg over_, LineRead.append_store over_, CommClient.readlinex_first over_] at *
    by_cases empty : (c.readlinex MAXLINE).bytes = crlf
    · have last : upToEmpty (crlf :: splitLines MAXLINE (c.readlinex MAXLINE).client.unread) =
          [crlf] := by
        unfold upToEmpty
        rw [List.idxOf_cons_self]
        rfl
      rw [if_pos ((CommClient.readlinex_empty_iff over_ buf).mpr empty), empty, last]
      refine ⟨rfl, ?_⟩
      rw [first, empty]
      rfl
    · have goesOn : upToEmpty ((c.readlinex MAXLINE).bytes ::
          splitLines MAXLINE (c.readlinex MAXLINE).client.unread) =
            (c.readlinex MAXLINE).bytes ::
              upToEmpty (splitLines MAXLINE (c.readlinex MAXLINE).client.unread) := by
        unfold upToEmpty
        rw [List.idxOf_cons_ne _ empty]
        rfl
      rw [if_neg fun same => empty ((CommClient.readlinex_empty_iff over_ buf).mp same)] at ended ⊢
      obtain ⟨header, rest⟩ := ih ended
      rw [goesOn, header]
      refine ⟨rfl, ?_⟩
      rw [List.flatten_cons, List.append_assoc, ← rest]
      exact first

/-- What is known behind such lines: the header they make, and the state of the connection. -/
theorem BehindLines.spec {lines : List Bytes} {c : CommClient} {h : HttpHeader}
    (behind : BehindLines lines c h) :
    h = HttpHeader.new.appendLines lines ∧ AfterHeader c h := by
  obtain ⟨c₀, buf, first, open_, rfl, ended, rfl, rfl⟩ := behind
  refine ⟨?_, ⟨c₀, buf, _, open_, ended, rfl, rfl⟩⟩
  rw [HttpHeader.appendLines_append]
  exact (headerLoop_upToEmpty ended).1

/-- The length that the header answers. -/
theorem BehindLines.getBodySize {lines : List Bytes} {c : CommClient} {h : HttpHeader}
    (behind : BehindLines lines c h) : h.getBodySize = readLength lines := by
  rw [behind.spec.1]
  exact (appendLines_reads lines).1

/-- Whether the header is one of a chunked body. -/
theorem BehindLines.isChunked {lines : List Bytes} {c : CommClient} {h : HttpHeader}
    (behind : BehindLines lines c h) : h.isChunked = readChunked lines := by
  rw [behind.spec.1]
  exact (appendLines_reads lines).2

/-! ## Announced lengths -/

/-- A header with one line of that name announces what the line does. -/
theorem Announces.of_line {length : ℕ} {line : Bytes} (before after : List Bytes)
    (announces : IsLengthLine length line)
    (others : ∀ other ∈ before ++ after, ¬ IsField .contentLength other) :
    Announces length (before ++ line :: after) where
  some_ := ⟨line, List.mem_append_right _ List.mem_cons_self, announces.isLengthField.1⟩
  all other inside named := by
    rcases List.mem_append.mp inside with front | back
    · exact absurd named (others other (List.mem_append_left _ front))
    · cases back with
      | head => exact announces.isLengthField
      | tail _ back => exact absurd named (others other (List.mem_append_right _ back))

/-- The length that is announced is read when no other line is filed as a length and it is an
`int`. -/
theorem Announces.readLength_eq {length : ℕ} {lines : List Bytes}
    (announces : Announces length lines)
    (only : ∀ line ∈ lines, filed line = some .contentLength → IsField .contentLength line)
    (fits : length < 2 ^ 31) : (readLength lines).toNat = length := by
  obtain ⟨line, inside, named⟩ := announces.some_
  have file := (announces.all line inside named).reads.1
  have some_ : (lines.filter fun line => filed line = some .contentLength) ≠ [] :=
    List.ne_nil_of_mem (List.mem_filter.mpr ⟨inside, decide_eq_true file⟩)
  have found := List.getLast?_eq_some_getLast some_
  generalize List.getLast _ some_ = last at found
  obtain ⟨member, filed_⟩ := List.mem_filter.mp (List.mem_of_getLast? found)
  have told := announces.all last member (only last member (of_decide_eq_true filed_))
  unfold readLength
  rw [found]
  dsimp only
  rw [told.atoi_value (by omega)]
  exact (toNat_bmod_iff (by omega)).mpr fits

/-- No length is read when no line is filed as one. -/
theorem readLength_none {lines : List Bytes}
    (none_ : ∀ line ∈ lines, filed line ≠ some .contentLength) : readLength lines = 0 := by
  have nothing : (lines.filter fun line => filed line = some .contentLength) = [] := by
    apply List.filter_eq_nil_iff.mpr
    intro line inside
    rw [decide_eq_true_eq]
    exact none_ line inside
  rw [readLength, nothing]
  rfl

/-- A line that mentions the name of the field behind a number of its own is taken for the
announcement. -/
example : readLength [bytes "X-Note-Of-Size: 9 (no Content-Length: given)\r\n"] = 9 := by decide

/-! ## Announced chunks -/

/-- A line that announces a chunked body is filed as a transfer coding, and mentions it. -/
theorem IsChunkedField.reads {line : Bytes} (announces : IsChunkedField line) :
    filed line = some .transferEncoding ∧
      hasCase (bytes "chunked") (Field.transferEncoding.value line) = true := by
  obtain ⟨named, word, lowered, front, back, blank, text⟩ := announces
  have plain : ∀ byte ∈ fieldText line, byte ≠ 58 ∧ byte ≠ 0 := by
    intro byte inside
    rw [text, List.mem_append, List.mem_append] at inside
    rcases inside with (before | letter) | behind
    · exact plain_of_blank (Or.inl (blank byte (List.mem_append_left _ before)))
    · have member : toLower byte ∈ bytes "chunked" := lowered ▸ List.mem_map_of_mem letter
      constructor
      · rintro rfl
        exact absurd member (by decide)
      · rintro rfl
        exact absurd member (by decide)
    · exact plain_of_blank (Or.inl (blank byte (List.mem_append_right _ behind)))
  obtain ⟨file, value⟩ := named.reads plain
  refine ⟨file, ?_⟩
  have same : (bytes "chunked").map toLower = bytes "chunked" := by decide
  rw [hasCase, strstr_isSome_iff, value, text, List.map_append, List.map_append, lowered, same]
  exact List.infix_append _ _ _

/-- A header that announces a chunked body is taken for such. -/
theorem AnnouncesChunks.readChunked_eq {lines : List Bytes} (announces : AnnouncesChunks lines) :
    readChunked lines = true := by
  obtain ⟨line, inside, chunked⟩ := announces.some_
  obtain ⟨file, mentions⟩ := chunked.reads
  apply List.any_eq_true.mpr
  exact ⟨line, inside, by rw [file, mentions]; rfl⟩

end TinyTools.Proxy
