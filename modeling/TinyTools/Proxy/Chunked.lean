import TinyTools.Proxy.Framing

/-!
# Chunked bodies

A chunked body consists of chunks behind lines with their sizes, of trailers and of an empty line.
The relay does not read the sizes: it sees the text as `readlinex` cuts it, where a line longer than
the buffer comes in parts and the last line of a body is the empty one.
-/

namespace TinyTools.Proxy

open TinyTools.Lib

/-- The bytes of an empty line. -/
def crlf : Bytes := [13, 10]

/-! ## Bodies -/

/-- The value of a hexadecimal digit. -/
def hexDigit (byte : UInt8) : Option ℕ :=
  let code := byte.toNat
  if 48 ≤ code ∧ code ≤ 57 then some (code - 48)
  else if 65 ≤ code ∧ code ≤ 70 then some (code - 55)
  else if 97 ≤ code ∧ code ≤ 102 then some (code - 87)
  else none

/-- The number that hexadecimal digits denote; none where there is no digit. -/
def hexValue (digits : Bytes) : Option ℕ :=
  if digits = [] then none
  else digits.foldlM (fun value byte => (hexDigit byte).map (16 * value + ·)) 0

/-- The line that announces a chunk. -/
structure SizeLine (length : ℕ) where
  /-- The length in hexadecimal digits. -/
  digits : Bytes
  /-- What follows the length, such as chunk extensions. -/
  extension : Bytes
  /-- The digits denote the length. -/
  value : hexValue digits = some length
  /-- It is one line. -/
  oneLine : 10 ∉ extension

/-- The bytes of the line. -/
def SizeLine.encode {length : ℕ} (line : SizeLine length) : Bytes :=
  line.digits ++ line.extension ++ crlf

/-- A chunk of arbitrary data. -/
structure Chunk where
  /-- The data. -/
  data : Bytes
  /-- A chunk without data ends the body. -/
  some_ : data ≠ []
  /-- The line in front of the data. -/
  size : SizeLine data.length

/-- The bytes of a chunk. -/
def Chunk.encode (chunk : Chunk) : Bytes := chunk.size.encode ++ chunk.data ++ crlf

/-- A line behind the last chunk. -/
structure Trailer where
  /-- The text of the line. -/
  text : Bytes
  /-- An empty line ends the body. -/
  some_ : text ≠ []
  /-- It is one line. -/
  oneLine : 10 ∉ text

/-- The bytes of a trailer line. -/
def Trailer.encode (trailer : Trailer) : Bytes := trailer.text ++ crlf

/-- A chunked body. -/
structure ChunkedBody where
  /-- The chunks with data. -/
  chunks : List Chunk
  /-- The chunk without data. -/
  last : SizeLine 0
  /-- The trailer lines. -/
  trailers : List Trailer

/-- The bytes of a body in front of its final empty line. -/
def ChunkedBody.front (body : ChunkedBody) : Bytes :=
  body.chunks.flatMap Chunk.encode ++ body.last.encode ++ body.trailers.flatMap Trailer.encode

/-- The bytes of a body. -/
def ChunkedBody.encode (body : ChunkedBody) : Bytes := body.front ++ crlf

/-! ## Lines of a text -/

/-- A text cut into lines, and long lines into full buffers. -/
def lines (text : Bytes) : List Bytes := chop (takeLine (MAXLINE - 1)) text

/-- A line is read without waiting for what follows it: it ends or it fills the buffer. -/
def Complete (room : ℕ) (line : Bytes) : Prop := line.length = room ∨ 10 ∈ line

/-- A text of which every line ends. -/
def EndsLine (text : Bytes) : Prop := ∀ byte ∈ text.getLast?, byte = 10

/-- A line starts its text. -/
theorem takeLine_append_drop (room : ℕ) (text : Bytes) :
    takeLine room text ++ text.drop (takeLine room text).length = text := by
  induction room generalizing text with
  | zero => rfl
  | succ room ih =>
    cases text with
    | nil => rfl
    | cons byte rest =>
      rw [takeLine]
      split
      · rfl
      · rw [List.length_cons, List.drop_succ_cons, List.cons_append, ih]

/-- A text that is not empty starts with a line that is not empty. -/
theorem takeLine_ne_nil {text : Bytes} (some_ : text ≠ []) : takeLine (MAXLINE - 1) text ≠ [] := by
  cases text with
  | nil => exact absurd rfl some_
  | cons byte rest =>
    rw [show MAXLINE - 1 = 8190 + 1 from rfl, takeLine]
    split <;> exact List.cons_ne_nil _ _

/-- What follows a complete line does not change it. -/
theorem takeLine_append {room : ℕ} {text : Bytes} (complete : Complete room (takeLine room text))
    (rest : Bytes) : takeLine room (text ++ rest) = takeLine room text := by
  induction room generalizing text with
  | zero => rfl
  | succ room ih =>
    cases text with
    | nil =>
      rcases complete with full | newline
      · cases full
      · cases newline
    | cons byte text =>
      rw [takeLine] at complete ⊢
      rw [List.cons_append, takeLine]
      by_cases ends : byte = 10
      · rw [if_pos ends, if_pos ends]
      · rw [if_neg ends] at complete
        rw [if_neg ends, if_neg ends]
        refine congrArg (byte :: ·) (ih ?_)
        rcases complete with full | newline
        · exact Or.inl (Nat.succ.inj full)
        · exact Or.inr ((List.mem_cons.mp newline).resolve_left (Ne.symm ends))

/-- The first line of a text of which every line ends. -/
theorem EndsLine.complete {text : Bytes} (ends : EndsLine text) (some_ : text ≠ []) (room : ℕ) :
    Complete room (takeLine room text) := by
  induction room generalizing text with
  | zero => exact Or.inl rfl
  | succ room ih =>
    cases text with
    | nil => exact absurd rfl some_
    | cons byte rest =>
      rw [takeLine]
      by_cases newline : byte = 10
      · rw [if_pos newline, newline]
        exact Or.inr List.mem_cons_self
      · rw [if_neg newline]
        cases rest with
        | nil => exact absurd (ends byte rfl) newline
        | cons next rest =>
          have later : EndsLine (next :: rest) := by
            intro last inside
            exact ends last (by rw [List.getLast?_cons_cons]; exact inside)
          rcases ih later (List.cons_ne_nil _ _) with full | inside
          · exact Or.inl (congrArg Nat.succ full)
          · exact Or.inr (List.mem_cons_of_mem _ inside)

/-- The lines behind the first one end too. -/
theorem EndsLine.drop {text : Bytes} (ends : EndsLine text) (n : ℕ) : EndsLine (text.drop n) := by
  intro byte inside
  apply ends byte
  rw [List.getLast?_drop] at inside
  split at inside
  · cases inside
  · exact inside

/-- Lines are taken from the front. -/
theorem takeLine_chops : Chops (takeLine (MAXLINE - 1)) where
  append_drop := takeLine_append_drop (MAXLINE - 1)
  ne_nil _ := takeLine_ne_nil

/-- Lines behind a text of which every line ends. -/
theorem lines_append {text : Bytes} (ends : EndsLine text) (rest : Bytes) :
    lines (text ++ rest) = lines text ++ lines rest := by
  unfold lines
  induction text using takeLine_chops.induction with
  | nil => rfl
  | cons text some_ ih =>
    have inside := congrArg List.length (takeLine_append_drop (MAXLINE - 1) text)
    rw [List.length_append] at inside
    have together : text ++ rest ≠ [] := List.append_ne_nil_of_left_ne_nil some_ rest
    rw [takeLine_chops.chop_cons together, takeLine_append (ends.complete some_ _),
      takeLine_chops.chop_cons some_, List.drop_append_of_le_length (by omega), ih (ends.drop _),
      List.cons_append]

/-! ## The lines of a body -/

/-- Every line of a body ends. -/
theorem ChunkedBody.endsLine_front (body : ChunkedBody) : EndsLine body.front := by
  have ended : ∀ text : Bytes, EndsLine (text ++ crlf) := by
    intro text byte inside
    rw [crlf, List.getLast?_append] at inside
    exact (Option.some.inj inside).symm
  rcases List.eq_nil_or_concat body.trailers with none_ | ⟨trailers, trailer, all⟩
  · rw [front, none_, List.flatMap_nil, List.append_nil, SizeLine.encode, ← List.append_assoc]
    exact ended _
  · rw [front, all, List.concat_eq_append, List.flatMap_append, List.flatMap_singleton,
      Trailer.encode, ← List.append_assoc, ← List.append_assoc]
    exact ended _

/-- The lines of a body are those in front of its final empty line, and that line. -/
theorem ChunkedBody.lines_encode (body : ChunkedBody) :
    lines body.encode = lines body.front ++ [crlf] :=
  lines_append body.endsLine_front crlf

end TinyTools.Proxy
