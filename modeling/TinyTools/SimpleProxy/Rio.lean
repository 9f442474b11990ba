import TinyTools.Lib.Loop
import TinyTools.Proxy.Splitting

/-!
# Robust reading

The simplified proxy reads a client through a buffer that one `read` refills, byte by byte up to a
newline. Whatever the segments in which the bytes arrive, a line is cut off the front of what has
not been read, and stored in the caller's array with a NUL behind it.
-/

namespace TinyTools.SimpleProxy

open TinyTools.Lib TinyTools.Proxy

/-- `MAXLINE`. -/
def MAXLINE : ℕ := 8192

/-- `RIO_BUFSIZE`. -/
def RIO_BUFSIZE : ℕ := 8192

/-- `read` on a descriptor, interrupted calls repeated: what it answers, and the segments behind. No
bytes are answered at the end of the stream. -/
def readSegment (size : ℕ) : List Segment → Bytes × List Segment
  | [] => ([], [])
  | segment :: others =>
    (segment.bytes.take size, consSegment (segment.bytes.drop size) others)

/-- No more is answered than there is room for. -/
theorem readSegment_length (size : ℕ) (pending : List Segment) :
    (readSegment size pending).1.length ≤ size := by
  cases pending with
  | nil => exact Nat.zero_le _
  | cons segment others => exact List.length_take_le ..

/-- What `read` answers and what it leaves are the bytes of the segments. -/
theorem readSegment_append (size : ℕ) (pending : List Segment) :
    (readSegment size pending).1 ++ (readSegment size pending).2.flatMap Segment.bytes =
      pending.flatMap Segment.bytes := by
  cases pending with
  | nil => rfl
  | cons segment others =>
    have restored : (consSegment (segment.bytes.drop size) others).flatMap Segment.bytes =
        segment.bytes.drop size ++ others.flatMap Segment.bytes := by
      cases segment.bytes.drop size <;> rfl
    rw [readSegment, restored, ← List.append_assoc, List.take_append_drop, List.flatMap_cons]

/-- With room for a byte, nothing is answered only at the end of the stream. -/
theorem readSegment_eq_nil {size : ℕ} (room : 0 < size) {pending : List Segment}
    (ended : (readSegment size pending).1 = []) : pending = [] := by
  cases pending with
  | nil => rfl
  | cons segment others =>
    rw [readSegment, List.take_eq_nil_iff] at ended
    cases ended with
    | inl none => omega
    | inr none => cases none

/-- `rio_t`, with the segments that still arrive on its descriptor. -/
structure Rio where
  /-- The `rio_cnt` bytes from `rio_bufptr` on. -/
  buffered : Bytes
  /-- The segments that still arrive. -/
  pending : List Segment
  /-- The bytes are in `rio_buf`. -/
  small : buffered.length ≤ RIO_BUFSIZE

/-- The bytes that were not read. -/
def Rio.unread (rp : Rio) : Bytes := rp.buffered ++ rp.pending.flatMap Segment.bytes

/-- A buffer refilled by one `read`. -/
def Rio.refill (pending : List Segment) : Rio :=
  ⟨(readSegment RIO_BUFSIZE pending).1, (readSegment RIO_BUFSIZE pending).2,
    readSegment_length RIO_BUFSIZE pending⟩

/-- Take a byte from the buffer. -/
def Rio.next : Rio → Option (UInt8 × Rio)
  | ⟨[], _, _⟩ => none
  | ⟨byte :: rest, pending, small⟩ => some (byte, ⟨rest, pending, Nat.le_of_succ_le small⟩)

/-- `rio_read` for one byte; none at the end of the stream. -/
def Rio.readByte (rp : Rio) : Option (UInt8 × Rio) :=
  if rp.buffered = [] then (refill rp.pending).next else rp.next

/-- The loop of `rio_readlineb`, with room for a number of bytes: the caller's array, the number of
bytes, and the buffer behind the line. -/
def Rio.readLoop : ℕ → Bytes → ℕ → Rio → Option (Bytes × ℕ × Rio)
  | 0, usrbuf, n, rp => (store usrbuf n 0).map (·, n, rp)
  | room + 1, usrbuf, n, rp =>
    match rp.readByte with
    | none => (store usrbuf n 0).map (·, n, rp)
    | some (c, rp) =>
      (store usrbuf n c).bind fun usrbuf =>
        if c = 10 then (store usrbuf (n + 1) 0).map (·, n + 1, rp)
        else readLoop room usrbuf (n + 1) rp

/-- `rio_readlineb`. -/
def Rio.readlineb (rp : Rio) (usrbuf : Bytes) (maxlen : ℕ) : Option (Bytes × ℕ × Rio) :=
  readLoop (maxlen - 1) usrbuf 0 rp

/-! ## What is read -/

/-- A byte is taken from the front of the buffer. -/
theorem Rio.next_spec (rp : Rio) :
    match rp.next with
    | none => rp.buffered = []
    | some (byte, rp') => rp.unread = byte :: rp'.unread := by
  obtain ⟨buffered, pending, small⟩ := rp
  cases buffered with
  | nil => rfl
  | cons byte rest => rfl

/-- A refill takes nothing away. -/
theorem Rio.unread_refill (pending : List Segment) :
    (refill pending).unread = pending.flatMap Segment.bytes :=
  readSegment_append RIO_BUFSIZE pending

/-- A byte is taken from the front of what was not read. -/
theorem Rio.readByte_spec (rp : Rio) :
    match rp.readByte with
    | none => rp.unread = []
    | some (byte, rp') => rp.unread = byte :: rp'.unread := by
  unfold readByte
  by_cases empty : rp.buffered = []
  · have same : rp.unread = (refill rp.pending).unread := by
      rw [unread_refill, unread, empty, List.nil_append]
    have spec := (refill rp.pending).next_spec
    rw [if_pos empty, same]
    cases step : (refill rp.pending).next with
    | none =>
      rw [step] at spec
      have ended := readSegment_eq_nil (by decide) spec
      rw [unread_refill, ended]
      rfl
    | some result =>
      rw [step] at spec
      exact spec
  · have spec := rp.next_spec
    rw [if_neg empty]
    cases step : rp.next with
    | none =>
      rw [step] at spec
      exact absurd spec empty
    | some result =>
      rw [step] at spec
      exact spec

/-- A line is stored behind the bytes that were stored, with a NUL behind it. -/
theorem Rio.readLoop_eq (room : ℕ) (array stored : Bytes) (rp : Rio)
    (fits : stored.length + room < array.length) :
    ∃ rp', readLoop room (overwrite array stored) stored.length rp =
        some (overwrite array (stored ++ takeLine room rp.unread ++ [0]),
          (stored ++ takeLine room rp.unread).length, rp') ∧
      rp'.unread = rp.unread.drop (takeLine room rp.unread).length := by
  induction room generalizing stored rp with
  | zero =>
    refine ⟨rp, ?_, rfl⟩
    rw [readLoop, store_next (by omega), takeLine, List.append_nil]
    rfl
  | succ room ih =>
    have spec := rp.readByte_spec
    rw [readLoop]
    cases step : rp.readByte with
    | none =>
      rw [step] at spec
      refine ⟨rp, ?_, ?_⟩
      · dsimp only
        rw [store_next (by omega), spec, takeLine, List.append_nil]
        rfl
      · rw [spec]
        rfl
    | some result =>
      obtain ⟨c, rp'⟩ := result
      rw [step] at spec
      dsimp only at spec ⊢
      rw [store_next (by omega), Option.bind_some, spec, takeLine]
      by_cases newline : c = 10
      · refine ⟨rp', ?_, ?_⟩
        · rw [if_pos newline, if_pos newline, ← length_snoc stored c,
            store_next (by rw [length_snoc]; omega), newline]
          rfl
        · rw [if_pos newline]
          rfl
      · obtain ⟨rest, read, left⟩ := ih (stored ++ [c]) rp' (by rw [length_snoc]; omega)
        refine ⟨rest, ?_, ?_⟩
        · rw [if_neg newline, if_neg newline, ← length_snoc stored c, read]
          simp only [List.append_assoc, List.singleton_append]
        · rw [if_neg newline, left]
          rfl

/-- `rio_readlineb` stores the first line of what was not read, cut to the room in front of the NUL,
and answers its length. -/
theorem Rio.readlineb_eq (rp : Rio) {maxlen : ℕ} (some_ : 0 < maxlen) {usrbuf : Bytes}
    (fits : maxlen ≤ usrbuf.length) :
    ∃ rp', rp.readlineb usrbuf maxlen =
        some (overwrite usrbuf (takeLine (maxlen - 1) rp.unread ++ [0]),
          (takeLine (maxlen - 1) rp.unread).length, rp') ∧
      rp'.unread = rp.unread.drop (takeLine (maxlen - 1) rp.unread).length :=
  readLoop_eq (maxlen - 1) usrbuf [] rp (by rw [List.length_nil]; omega)

end TinyTools.SimpleProxy
