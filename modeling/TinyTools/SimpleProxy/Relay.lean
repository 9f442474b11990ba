import TinyTools.SimpleProxy.Rio

/-!
# The relay of a GET

The header lines of the client are passed on up to the empty line, with another line in place of
every one that asks to keep the connection alive; then the response is passed on as it is read.
A header line longer than the buffer is read in parts, and what is left of it at the end is taken
for a line of its own. A read of the response may fill its buffer, and then the NUL behind it is
written past the end.
-/

namespace TinyTools.SimpleProxy

open TinyTools.Lib TinyTools.Proxy

/-- The line that is replaced, in any case. -/
def keepAlive : Bytes := bytes "Connection: keep-alive\r\n"

/-- `closeinfo`. -/
def closeinfo : Bytes := bytes "Connection: close\r\n"

/-- The line behind the header. -/
def emptyLine : Bytes := bytes "\r\n"

/-- `strcasecmp` finds no difference. -/
def sameIgnoringCase (text other : Bytes) : Bool := text.map toLower == other.map toLower

/-- The loop of `webTalk` over the header lines: the bytes that it writes to the server. -/
def headerLoop : ℕ → Rio → Bytes → Option Bytes
  | 0, _, _ => none
  | fuel + 1, client, buf1 => do
    let (buf1, byteCount, client) ← client.readlineb buf1 MAXLINE
    if byteCount = 0 then return []
    else
      let buf1 ← store buf1 byteCount 0
      if sameIgnoringCase (cString buf1) keepAlive then
        let sent ← headerLoop fuel client buf1
        return closeinfo ++ sent
      else if cString buf1 = emptyLine then return buf1.take byteCount
      else
        let sent ← headerLoop fuel client buf1
        return buf1.take byteCount ++ sent

/-- The loop of `webTalk` over the response: the bytes that it writes to the client. -/
def responseLoop : ℕ → List Segment → Bytes → Option Bytes
  | 0, _, _ => none
  | fuel + 1, server, buf2 => do
    let (data, server) := readSegment MAXLINE server
    if data = [] then return []
    else
      let buf2 ← store (overwrite buf2 data) data.length 0
      let sent ← responseLoop fuel server buf2
      return buf2.take data.length ++ sent

/-! ## What is meant -/

/-- The lines of a text: it is cut for a buffer in which all of it has room. -/
def wholeLines (text : Bytes) : List Bytes := splitLines (text.length + 2) text

/-- Lines up to the empty one, with the line that closes the connection in place of every one that
keeps it alive. -/
def forwarded : List Bytes → Bytes
  | [] => []
  | line :: rest =>
    if sameIgnoringCase line keepAlive then closeinfo ++ forwarded rest
    else if line = emptyLine then line
    else line ++ forwarded rest

/-- Both loops write exactly what is meant, and store nothing outside their buffers, whatever these
held. -/
def RelaysExactly (client : Rio) (server : List Segment) : Prop :=
  ∀ buf1 buf2 : Bytes, buf1.length = MAXLINE → buf2.length = MAXLINE →
    headerLoop (client.unread.length + 1) client buf1 =
        some (forwarded (wholeLines client.unread)) ∧
      responseLoop ((server.flatMap Segment.bytes).length + 1) server buf2 =
        some (server.flatMap Segment.bytes)

/-- What is left of a line behind full buffers. -/
def remainder (line : Bytes) : Bytes :=
  line.drop ((MAXLINE - 1) * ((line.length - 1) / (MAXLINE - 1)))

/-- No line up to the empty one that is longer than the buffer leaves the line that keeps the
connection alive, and none with another line behind it leaves the empty one. -/
def Unbroken : List Bytes → Prop
  | [] => True
  | line :: rest =>
    line = emptyLine ∨
      (MAXLINE - 1 < line.length → sameIgnoringCase (remainder line) keepAlive = false ∧
        (remainder line = emptyLine → rest = [])) ∧ Unbroken rest

/-! ## Lines that are read -/

/-- Only a newline is one in lower case, and only the NUL. -/
theorem eq_of_toLower {byte other : UInt8} (below : other.toNat < 65)
    (lower : toLower byte = other) : byte = other := by
  unfold toLower at lower
  split_ifs at lower with upper
  · have number := congrArg UInt8.toNat lower
    rw [UInt8.toNat_add] at number
    have offset : (32 : UInt8).toNat = 32 := rfl
    omega
  · exact lower

/-- A line whose string has its newline is the string. -/
theorem cString_eq_line {line : Bytes} (newline : 10 ∉ line.dropLast) (inside : 10 ∈ cString line) :
    cString line = line := by
  obtain ⟨tail, split⟩ := List.takeWhile_prefix (· != 0) (l := line)
  cases tail with
  | nil => rwa [List.append_nil] at split
  | cons byte tail =>
    rw [← split, List.dropLast_append_of_ne_nil (List.cons_ne_nil _ _)] at newline
    exact absurd (List.mem_append_left _ inside) newline

/-- A line is compared as its string, where the other text has a newline and no NUL. -/
theorem sameIgnoringCase_cString {line other : Bytes} (newline : 10 ∉ line.dropLast)
    (ends : 10 ∈ other.map toLower) (noNul : 0 ∉ other.map toLower) :
    sameIgnoringCase (cString line) other = sameIgnoringCase line other := by
  unfold sameIgnoringCase
  rw [Bool.eq_iff_iff, beq_iff_eq, beq_iff_eq]
  constructor
  · intro same
    rw [← same] at ends
    obtain ⟨byte, inside, lower⟩ := List.mem_map.mp ends
    have newline_ := eq_of_toLower (by decide) lower
    rw [cString_eq_line newline (newline_ ▸ inside)] at same
    exact same
  · intro same
    have whole : cString line = line := by
      apply List.takeWhile_eq_self_iff.mpr
      intro byte inside
      rw [bne_iff_ne]
      intro nul
      rw [← same] at noNul
      exact noNul (List.mem_map.mpr ⟨byte, inside, by rw [nul]; rfl⟩)
    rw [whole, same]

/-- The string is the empty line exactly when the line is. -/
theorem cString_emptyLine {line : Bytes} (newline : 10 ∉ line.dropLast) :
    cString line = emptyLine ↔ line = emptyLine := by
  constructor
  · intro same
    have inside : 10 ∈ cString line := by
      rw [same]
      decide
    rwa [cString_eq_line newline inside] at same
  · intro same
    rw [same]
    decide

/-- The header loop passes on the pieces that are read. -/
theorem headerLoop_eq (client : Rio) {buf1 : Bytes} (size : buf1.length = MAXLINE) {fuel : ℕ}
    (enough : client.unread.length < fuel) :
    headerLoop fuel client buf1 = some (forwarded (splitLines MAXLINE client.unread)) := by
  have chops := takeLine_chops_of (by decide : 2 ≤ MAXLINE)
  induction fuel generalizing client buf1 with
  | zero => exact absurd enough (Nat.not_lt_zero _)
  | succ fuel ih =>
  obtain ⟨client', read, left⟩ := client.readlineb_eq (by decide : 0 < MAXLINE) size.ge
  by_cases some_ : client.unread = []
  · rw [headerLoop, read, some_]
    rfl
  have short := length_takeLine_le (MAXLINE - 1) client.unread
  have newline := newline_takeLine (MAXLINE - 1) client.unread
  have notNil := chops.ne_nil client.unread some_
  have shorter := chops.drop_lt some_
  have room : (takeLine (MAXLINE - 1) client.unread).length < MAXLINE := by
    unfold MAXLINE at short ⊢
    omega
  have pieces : splitLines MAXLINE client.unread =
      takeLine (MAXLINE - 1) client.unread :: splitLines MAXLINE client'.unread := by
    rw [left]
    exact chops.chop_cons some_
  have later (buf1 : Bytes) (size : buf1.length = MAXLINE) := ih client' size (by rw [left]; omega)
  rw [pieces]
  generalize takeLine (MAXLINE - 1) client.unread = line at *
  have counted : line.length ≠ 0 := fun zero => notNil (List.eq_nil_of_length_eq_zero zero)
  have size' : (overwrite buf1 (line ++ [0])).length = MAXLINE := by
    rw [length_overwrite_snoc (by rwa [size]), size]
  -- the NUL that `rio_readlineb` has put there
  have stored : store (overwrite buf1 (line ++ [0])) line.length 0 =
      some (overwrite buf1 (line ++ [0])) := by
    rw [store_inside (by rwa [size']), overwrite, List.append_assoc,
      List.set_append_right _ _ le_rfl, Nat.sub_self]
    rfl
  have string : cString (overwrite buf1 (line ++ [0])) = cString line :=
    cString_overwrite buf1 line
  have front : (overwrite buf1 (line ++ [0])).take line.length = line :=
    take_overwrite buf1 line [0]
  rw [headerLoop, read, forwarded]
  simp only [Option.bind_eq_bind, Option.bind_some, if_neg counted, stored, string, front,
    sameIgnoringCase_cString newline (by decide : 10 ∈ keepAlive.map toLower) (by decide),
    cString_emptyLine newline, later _ size']
  split_ifs <;> rfl

/-! ## The response -/

/-- A segment with room for the NUL is passed on. -/
theorem responseLoop_cons {segment : Segment} (short : segment.bytes.length < MAXLINE)
    (others : List Segment) {buf2 : Bytes} (size : buf2.length = MAXLINE) (fuel : ℕ) :
    (overwrite buf2 (segment.bytes ++ [0])).length = MAXLINE ∧
      responseLoop (fuel + 1) (segment :: others) buf2 =
        (responseLoop fuel others (overwrite buf2 (segment.bytes ++ [0]))).map
          (segment.bytes ++ ·) := by
  have whole : segment.bytes.take MAXLINE = segment.bytes := List.take_of_length_le short.le
  have nothing : segment.bytes.drop MAXLINE = [] := List.drop_eq_nil_of_le short.le
  have some_ : segment.bytes ≠ [] := List.cons_ne_nil _ _
  have room : segment.bytes.length < buf2.length := by rwa [size]
  have stored : store (overwrite buf2 segment.bytes) segment.bytes.length 0 =
      some (overwrite buf2 (segment.bytes ++ [0])) := store_next room 0
  have front : (overwrite buf2 (segment.bytes ++ [0])).take segment.bytes.length =
      segment.bytes := take_overwrite buf2 segment.bytes [0]
  constructor
  · rw [length_overwrite_snoc room, size]
  · rw [responseLoop, readSegment, whole, nothing]
    simp only [consSegment, if_neg some_, Option.bind_eq_bind, stored, Option.bind_some, front]
    cases responseLoop fuel others (overwrite buf2 (segment.bytes ++ [0])) <;> rfl

/-- Behind a segment that fills the buffer there is no room for the NUL. -/
theorem responseLoop_full {segment : Segment} (full : MAXLINE ≤ segment.bytes.length)
    (others : List Segment) {buf2 : Bytes} (size : buf2.length = MAXLINE) (fuel : ℕ) :
    responseLoop fuel (segment :: others) buf2 = none := by
  cases fuel with
  | zero => rfl
  | succ fuel =>
    have part : (segment.bytes.take MAXLINE).length = MAXLINE := by
      rw [List.length_take, Nat.min_eq_left full]
    have some_ : segment.bytes.take MAXLINE ≠ [] := by
      intro none
      rw [none] at part
      exact absurd part (by decide)
    have stored : store (overwrite buf2 (segment.bytes.take MAXLINE))
        (segment.bytes.take MAXLINE).length 0 = none := by
      rw [store_overwrite, if_neg (by rw [part, size]; exact lt_irrefl _)]
    rw [responseLoop, readSegment]
    simp only [if_neg some_, Option.bind_eq_bind, stored, Option.bind_none]

/-- The response loop passes everything on exactly when no segment fills the buffer. -/
theorem responseLoop_iff (server : List Segment) {buf2 : Bytes} (size : buf2.length = MAXLINE)
    {fuel : ℕ} (enough : (server.flatMap Segment.bytes).length < fuel) :
    responseLoop fuel server buf2 = some (server.flatMap Segment.bytes) ↔
      ∀ segment ∈ server, segment.bytes.length < MAXLINE := by
  induction fuel generalizing server buf2 with
  | zero => exact absurd enough (Nat.not_lt_zero _)
  | succ fuel ih =>
  cases server with
  | nil => exact iff_of_true rfl nofun
  | cons segment others =>
    by_cases short : segment.bytes.length < MAXLINE
    · have less : (others.flatMap Segment.bytes).length < fuel := by
        have positive : 0 < segment.bytes.length := Nat.succ_pos _
        rw [List.flatMap_cons, List.length_append] at enough
        omega
      obtain ⟨size', step⟩ := responseLoop_cons short others size fuel
      rw [step, List.flatMap_cons, List.forall_mem_cons, and_iff_right short,
        ← ih others size' less]
      change Option.map _ _ = Option.map (segment.bytes ++ ·) (some _) ↔ _
      exact Option.map_inj_right fun _ _ => List.append_cancel_left
    · rw [responseLoop_full (not_lt.mp short) others size, List.forall_mem_cons]
      exact iff_of_false nofun fun both => short both.1

/-! ## Lines and their pieces -/

/-- A line that is the same but for the case has the same length. -/
theorem length_of_same {text other : Bytes} (same : sameIgnoringCase text other = true) :
    text.length = other.length := by
  have lower := congrArg List.length (beq_iff_eq.mp same)
  rwa [List.length_map, List.length_map] at lower

/-- Another line than the two special ones is passed on. -/
theorem forwarded_plain {line : Bytes} (other : sameIgnoringCase line keepAlive = false)
    (some_ : line ≠ emptyLine) (rest : List Bytes) :
    forwarded (line :: rest) = line ++ forwarded rest := by
  rw [forwarded, if_neg (by rw [other]; exact Bool.false_ne_true), if_neg some_]

/-- A text of the buffer's length is passed on. -/
theorem forwarded_long {line : Bytes} (long : MAXLINE - 1 ≤ line.length) (rest : List Bytes) :
    forwarded (line :: rest) = line ++ forwarded rest := by
  have keep : keepAlive.length = 24 := rfl
  have empty : emptyLine.length = 2 := rfl
  unfold MAXLINE at long
  apply forwarded_plain
  · apply Bool.eq_false_iff.mpr
    intro same
    have length := length_of_same same
    omega
  · intro same
    rw [same] at long
    omega

/-- A line that fits is read in one piece. -/
theorem splitLines_short {line : Bytes} (some_ : line ≠ []) (newline : 10 ∉ line.dropLast)
    (short : line.length ≤ MAXLINE - 1) : splitLines MAXLINE line = [line] := by
  have chops := takeLine_chops_of (by decide : 2 ≤ MAXLINE)
  rw [splitLines, chops.chop_cons some_, takeLine_piece short newline, List.drop_length]
  rfl

/-- Of a longer line, as much as fits is read first. -/
theorem splitLines_long {line : Bytes} (newline : 10 ∉ line.dropLast)
    (long : MAXLINE - 1 < line.length) :
    splitLines MAXLINE line =
      line.take (MAXLINE - 1) :: splitLines MAXLINE (line.drop (MAXLINE - 1)) := by
  have chops := takeLine_chops_of (by decide : 2 ≤ MAXLINE)
  have some_ : line ≠ [] := List.ne_nil_of_length_pos (Nat.zero_lt_of_lt long)
  have full : (line.take (MAXLINE - 1)).length = MAXLINE - 1 := by
    rw [List.length_take]
    omega
  have front : 10 ∉ line.take (MAXLINE - 1) := by
    intro inside
    rw [List.dropLast_eq_take] at newline
    have part : line.take (MAXLINE - 1) <+: line.take (line.length - 1) :=
      List.take_prefix_take_left (by omega)
    exact newline (part.subset inside)
  have first : takeLine (MAXLINE - 1) line = line.take (MAXLINE - 1) := by
    have piece := takeLine_piece full.le fun inside => front (List.dropLast_subset _ inside)
    have more := takeLine_append (piece.symm ▸ Or.inl full :
      Complete (MAXLINE - 1) (takeLine (MAXLINE - 1) (line.take (MAXLINE - 1))))
      (line.drop (MAXLINE - 1))
    rw [List.take_append_drop, piece] at more
    exact more
  rw [splitLines, chops.chop_cons some_, first, full]
  rfl

/-- A line that fits is its own remainder. -/
theorem remainder_short {line : Bytes} (short : line.length ≤ MAXLINE - 1) :
    remainder line = line := by
  have none : (line.length - 1) / (MAXLINE - 1) = 0 := by
    apply Nat.div_eq_of_lt
    have size : MAXLINE - 1 = 8191 := rfl
    omega
  rw [remainder, none, Nat.mul_zero, List.drop_zero]

/-- The remainder of a longer line is that of what is behind a full buffer. -/
theorem remainder_long {line : Bytes} (long : MAXLINE - 1 < line.length) :
    remainder line = remainder (line.drop (MAXLINE - 1)) := by
  have size : MAXLINE - 1 = 8191 := rfl
  have parts : (line.length - 1) / (MAXLINE - 1) =
      ((line.drop (MAXLINE - 1)).length - 1) / (MAXLINE - 1) + 1 := by
    rw [List.length_drop, size]
    omega
  rw [remainder, remainder, List.drop_drop, parts, Nat.mul_add_one, Nat.add_comm]

/-- The pieces of a line are passed on up to the last one. -/
theorem forwarded_pieces {line : Bytes} (some_ : line ≠ []) (newline : 10 ∉ line.dropLast)
    (more : List Bytes) :
    ∃ front, line = front ++ remainder line ∧ remainder line ≠ [] ∧
      forwarded (splitLines MAXLINE line ++ more) =
        front ++ forwarded (remainder line :: more) := by
  induction length : line.length using Nat.strong_induction_on generalizing line with
  | _ length ih =>
  by_cases short : line.length ≤ MAXLINE - 1
  · rw [remainder_short short, splitLines_short some_ newline short]
    exact ⟨[], rfl, some_, rfl⟩
  · have long := not_le.mp short
    have full : (line.take (MAXLINE - 1)).length = MAXLINE - 1 := by
      rw [List.length_take]
      omega
    have rest : line.drop (MAXLINE - 1) ≠ [] := by
      intro none
      rw [List.drop_eq_nil_iff] at none
      exact short none
    have newline' : 10 ∉ (line.drop (MAXLINE - 1)).dropLast := by
      have whole : line.dropLast =
          line.take (MAXLINE - 1) ++ (line.drop (MAXLINE - 1)).dropLast := by
        conv_lhs => rw [← List.take_append_drop (MAXLINE - 1) line]
        exact List.dropLast_append_of_ne_nil rest
      rw [whole] at newline
      exact fun inside => newline (List.mem_append_right _ inside)
    have less : (line.drop (MAXLINE - 1)).length < line.length := by
      have size : MAXLINE - 1 = 8191 := rfl
      rw [List.length_drop]
      omega
    obtain ⟨front, split, tail, passed⟩ := ih _ (length ▸ less) rest newline' rfl
    rw [remainder_long long]
    refine ⟨line.take (MAXLINE - 1) ++ front, ?_, tail, ?_⟩
    · rw [List.append_assoc, ← split, List.take_append_drop]
    · rw [splitLines_long newline long, List.cons_append, forwarded_long full.ge, passed,
        List.append_assoc]

/-! ## All lines -/

/-- Something is passed on of every line. -/
theorem forwarded_ne_nil {line : Bytes} (some_ : line ≠ []) (rest : List Bytes) :
    forwarded (line :: rest) ≠ [] := by
  rw [forwarded]
  split_ifs
  · exact List.append_ne_nil_of_left_ne_nil (by decide) _
  · exact some_
  · exact List.append_ne_nil_of_left_ne_nil some_ _

/-- A line that keeps the connection alive is not passed on. -/
theorem closeinfo_ne {line : Bytes} (same : sameIgnoringCase line keepAlive = true)
    (behind rest : Bytes) : closeinfo ++ behind ≠ line ++ rest := by
  intro equal
  have front := congrArg (List.take 13) equal
  have length : line.length = 24 := length_of_same same
  have lower := congrArg (List.take 13) (beq_iff_eq.mp same)
  rw [List.take_append_of_le_length (by decide), List.take_append_of_le_length (by omega)] at front
  rw [← List.map_take, ← front] at lower
  exact absurd lower (by decide)

/-- What a long line leaves is passed on with what is meant behind it exactly when it is none of the
special lines, or the empty one at the end. -/
theorem forwarded_remainder_iff {line : Bytes} {pieces rest : List Bytes}
    (some_ : ∀ other ∈ rest, other ≠ []) (last : rest = [] → pieces = []) :
    forwarded (line :: pieces) = line ++ forwarded rest ↔
      (sameIgnoringCase line keepAlive = false ∧ (line = emptyLine → rest = [])) ∧
        forwarded pieces = forwarded rest := by
  cases same : sameIgnoringCase line keepAlive with
  | true =>
    rw [forwarded, if_pos same]
    exact iff_of_false (closeinfo_ne same _ _) fun both => absurd both.1.1 (by decide)
  | false =>
    rw [and_iff_right rfl]
    by_cases empty : line = emptyLine
    · rw [forwarded, if_neg (by rw [same]; exact Bool.false_ne_true), if_pos empty,
        List.self_eq_append_right]
      constructor
      · intro nothing
        cases rest with
        | nil => exact ⟨fun _ => rfl, by rw [last rfl]⟩
        | cons next rest => exact absurd nothing (forwarded_ne_nil (some_ next (.head _)) rest)
      · intro both
        rw [both.1 empty]
        rfl
    · rw [forwarded_plain same empty, List.append_cancel_left_eq, and_iff_right]
      exact fun yes => absurd yes empty

/-- The pieces of lines are passed on like the lines exactly when these are unbroken. -/
theorem forwarded_flatMap_iff {lines : List Bytes} (some_ : ∀ line ∈ lines, line ≠ [])
    (newline : ∀ line ∈ lines, 10 ∉ line.dropLast) :
    forwarded (lines.flatMap (splitLines MAXLINE)) = forwarded lines ↔ Unbroken lines := by
  induction lines with
  | nil => exact iff_of_true rfl trivial
  | cons line rest ih =>
    have own := some_ line (.head _)
    have others := fun other inside => some_ other (.tail line inside)
    have tail := ih others (fun other inside => newline other (.tail _ inside))
    rw [List.flatMap_cons, Unbroken]
    by_cases empty : line = emptyLine
    · have piece : splitLines MAXLINE emptyLine = [emptyLine] := by decide +kernel
      rw [empty, piece, List.singleton_append, forwarded, forwarded, if_neg (by decide), if_pos rfl,
        if_neg (by decide), if_pos rfl]
      exact iff_of_true rfl (Or.inl rfl)
    rw [or_iff_right empty]
    by_cases short : line.length ≤ MAXLINE - 1
    · rw [splitLines_short own (newline line (.head _)) short, List.singleton_append,
        forwarded, forwarded, if_neg empty, if_neg empty, ← tail,
        and_iff_right fun long => absurd short (not_le.mpr long)]
      split_ifs <;> exact List.append_right_inj _
    · have long := not_le.mp short
      obtain ⟨front, split, -, passed⟩ := forwarded_pieces own (newline line (.head _))
        (rest.flatMap (splitLines MAXLINE))
      have meant : forwarded (line :: rest) = front ++ (remainder line ++ forwarded rest) := by
        rw [forwarded_long long.le, ← List.append_assoc, ← split]
      have last : rest = [] → rest.flatMap (splitLines MAXLINE) = [] := by
        intro none
        rw [none, List.flatMap_nil]
      rw [passed, meant, List.append_right_inj, forwarded_remainder_iff others last, tail,
        imp_iff_right long]

/-- Lines with a newline at the end of all but the last are cut one by one. -/
theorem splitLines_flatten {lines : List Bytes}
    (ends : lines.Pairwise fun line _ => line.getLast? = some 10) :
    splitLines MAXLINE lines.flatten = lines.flatMap (splitLines MAXLINE) := by
  induction lines with
  | nil => rfl
  | cons line rest ih =>
    obtain ⟨own, others⟩ := List.pairwise_cons.mp ends
    rw [List.flatten_cons, List.flatMap_cons, ← ih others]
    cases rest with
    | nil =>
      have nothing : splitLines MAXLINE [] = [] := rfl
      rw [List.flatten_nil, List.append_nil, nothing, List.append_nil]
    | cons next rest =>
      have newline : EndsLine line := by
        intro byte last
        rw [own next (.head _)] at last
        exact (Option.some.inj last).symm
      exact lines_append newline _

/-- The pieces that are read are those of the lines. -/
theorem splitLines_eq_flatMap (text : Bytes) :
    splitLines MAXLINE text = (wholeLines text).flatMap (splitLines MAXLINE) := by
  have chops := takeLine_chops_of (Nat.le_add_left 2 text.length)
  have areLines := splitLines_areLines (Nat.le_add_left 2 text.length) text
  have whole : (wholeLines text).flatten = text := chops.flatten_chop text
  have ends : (wholeLines text).Pairwise fun line _ => line.getLast? = some 10 := by
    apply areLines.ends.imp_of_mem
    intro line _ inside _ either
    apply either.resolve_right
    have part := (List.sublist_flatten_of_mem inside).length_le
    unfold wholeLines at whole
    rw [whole] at part
    omega
  rw [← splitLines_flatten ends, whole]

/-- Both loops pass everything on as it is meant, and within their buffers, exactly when the header
lines are unbroken and no read of the response fills its buffer. -/
theorem relaysExactly_iff (client : Rio) (server : List Segment) :
    RelaysExactly client server ↔ Unbroken (wholeLines client.unread) ∧
      ∀ segment ∈ server, segment.bytes.length < MAXLINE := by
  have areLines : AreLines (client.unread.length + 2) (wholeLines client.unread) :=
    splitLines_areLines (Nat.le_add_left 2 client.unread.length) client.unread
  have header {buf1 : Bytes} (size : buf1.length = MAXLINE) :
      headerLoop (client.unread.length + 1) client buf1 =
        some (forwarded (wholeLines client.unread)) ↔ Unbroken (wholeLines client.unread) := by
    rw [headerLoop_eq client size (Nat.lt_succ_self _), splitLines_eq_flatMap,
      Option.some_inj, forwarded_flatMap_iff areLines.some_ areLines.newline]
  have response {buf2 : Bytes} (size : buf2.length = MAXLINE) :=
    responseLoop_iff server size (Nat.lt_succ_self (server.flatMap Segment.bytes).length)
  have zeros : (List.replicate MAXLINE (0 : UInt8)).length = MAXLINE := List.length_replicate
  constructor
  · intro exactly
    obtain ⟨first, second⟩ := exactly _ _ zeros zeros
    exact ⟨(header zeros).mp first, (response zeros).mp second⟩
  · intro both buf1 buf2 size1 size2
    exact ⟨(header size1).mpr both.1, (response size2).mpr both.2⟩

/-- A response that arrives with as many bytes as the buffer has. -/
theorem not_relaysExactly_full :
    ¬ RelaysExactly ⟨[], [], Nat.zero_le _⟩ [⟨97, List.replicate 8191 97⟩] := by
  intro relays
  have segments := (relays (List.replicate MAXLINE 0) (List.replicate MAXLINE 0)
    List.length_replicate List.length_replicate).2
  have full : MAXLINE ≤ (Segment.bytes ⟨97, List.replicate 8191 97⟩).length := by
    rw [Segment.bytes, List.length_cons, List.length_replicate]
    exact le_rfl
  rw [responseLoop_full full [] List.length_replicate] at segments
  cases segments

end TinyTools.SimpleProxy
