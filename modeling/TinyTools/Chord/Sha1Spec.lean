import Mathlib.Tactic.Ring
import TinyTools.Chord.Sha1
import TinyTools.Lib.Blocks

/-!
# The secure hash

The standard pads a message to full blocks and compresses one block after the other. A context takes
the message piece by piece, counts its bits in two words, pads what is left over, and answers. Over
every sequence of calls it answers the standard's digest of all pieces, as long as these are shorter
than the counter allows and none comes after an answer; otherwise it answers nothing.
-/

namespace TinyTools.Chord

open TinyTools.Lib

/-! ## The standard -/

namespace Standard

/-- A number in so many bytes, the highest one first. -/
def bigEndian (bytes number : ℕ) : Bytes :=
  (List.range bytes).reverse.map fun i => UInt8.ofNat (number / 256 ^ i)

/-- A word of a block, its first byte the highest. -/
def word (block : Bytes) (t : ℕ) : UInt32 :=
  UInt32.ofNat ((((block.getD (t * 4) 0).toNat * 256 + (block.getD (t * 4 + 1) 0).toNat) * 256 +
    (block.getD (t * 4 + 2) 0).toNat) * 256 + (block.getD (t * 4 + 3) 0).toNat)

/-- The circular left shift of a word. -/
def rotate (bits : ℕ) (x : UInt32) : UInt32 := ⟨x.toBitVec.rotateLeft bits⟩

/-- The message schedule. -/
def schedule (block : Bytes) (t : ℕ) : UInt32 :=
  if t < 16 then word block t
  else rotate 1 (schedule block (t - 3) ^^^ schedule block (t - 8) ^^^
    schedule block (t - 14) ^^^ schedule block (t - 16))
termination_by t
decreasing_by all_goals omega

/-- The logical function of a round. -/
def logical (t : ℕ) (x y z : UInt32) : UInt32 :=
  if t < 20 then (x &&& y) ^^^ (~~~x &&& z)
  else if t < 40 then x ^^^ y ^^^ z
  else if t < 60 then (x &&& y) ^^^ (x &&& z) ^^^ (y &&& z)
  else x ^^^ y ^^^ z

/-- The constant of a round. -/
def constant (t : ℕ) : UInt32 :=
  if t < 20 then 0x5A827999 else if t < 40 then 0x6ED9EBA1 else if t < 60 then 0x8F1BBCDC
  else 0xCA62C1D6

/-- One round. -/
def round (block : Bytes) (s : Digest) (t : ℕ) : Digest :=
  ⟨rotate 5 s.a + logical t s.b s.c s.d + s.e + constant t + schedule block t, s.a,
    rotate 30 s.b, s.c, s.d⟩

/-- One block. -/
def compress (digest : Digest) (block : Bytes) : Digest :=
  let s := (List.range 80).foldl (round block) digest
  ⟨digest.a + s.a, digest.b + s.b, digest.c + s.c, digest.d + s.d, digest.e + s.e⟩

/-- The initial digest. -/
def initial : Digest := ⟨0x67452301, 0xEFCDAB89, 0x98BADCFE, 0x10325476, 0xC3D2E1F0⟩

/-- A mark, as few zeros as fill a block up to its last eight bytes, and the number of bits. -/
def padding (length : ℕ) : Bytes :=
  [0x80] ++ List.replicate ((119 - length % 64) % 64) 0 ++ bigEndian 8 (8 * length)

/-- The digest of a message. -/
def sha1 (message : Bytes) : Digest :=
  (blocks 64 (message ++ padding message.length)).foldl compress initial

end Standard

open Standard

/-! ## One block -/

/-- The two shifts of the macro turn a word as the standard does. -/
theorem sha1CircularShift_eq {bits : ℕ} (some_ : 0 < bits) (fewer : bits < 32) (x : UInt32) :
    sha1CircularShift (UInt32.ofNat bits) x = rotate bits x := by
  have amount : (UInt32.ofNat bits).toNat = bits := by
    rw [UInt32.toNat_ofNat']
    omega
  have rest : ((32 : UInt32) - UInt32.ofNat bits).toNat = 32 - bits := by
    rw [UInt32.toNat_sub_of_le, amount]
    · rfl
    · rw [UInt32.le_iff_toNat_le, amount]
      exact fewer.le
  have left : ((UInt32.ofNat bits).toBitVec % 32).toNat = bits := by
    rw [BitVec.toNat_umod, UInt32.toNat_toBitVec, amount]
    exact Nat.mod_eq_of_lt fewer
  have right : (((32 : UInt32) - UInt32.ofNat bits).toBitVec % 32).toNat = 32 - bits := by
    rw [BitVec.toNat_umod, UInt32.toNat_toBitVec, rest]
    exact Nat.mod_eq_of_lt (Nat.sub_lt (by decide) some_)
  apply UInt32.toBitVec_inj.mp
  rw [sha1CircularShift, rotate, UInt32.toBitVec_or, UInt32.toBitVec_shiftLeft,
    UInt32.toBitVec_shiftRight, BitVec.shiftLeft_eq', BitVec.ushiftRight_eq', left, right,
    BitVec.rotateLeft_def, Nat.mod_eq_of_lt fewer]

/-- Shifted in front of a smaller number. -/
theorem shift_or {x y i : ℕ} (small : y < 2 ^ i) : x <<< i ||| y = x * 2 ^ i + y := by
  rw [← Nat.shiftLeft_add_eq_or_of_lt small, Nat.shiftLeft_eq]

/-- A byte shifted within a word. -/
theorem toNat_shift (byte : UInt8) {i : ℕ} (inside : i ≤ 24) :
    (byte.toUInt32 <<< UInt32.ofNat i).toNat = byte.toNat <<< i := by
  have small := byte.toNat_lt
  have power : 2 ^ i ≤ 2 ^ 24 := Nat.pow_le_pow_right (by decide) inside
  have amount : (UInt32.ofNat i).toNat % 32 = i := by
    rw [UInt32.toNat_ofNat']
    omega
  have fits : byte.toNat * 2 ^ i < 2 ^ 32 := by
    calc byte.toNat * 2 ^ i ≤ 255 * 2 ^ 24 := Nat.mul_le_mul (by omega) power
      _ < 2 ^ 32 := by decide
  rw [UInt32.toNat_shiftLeft, UInt8.toNat_toUInt32, amount, Nat.shiftLeft_eq, Nat.mod_eq_of_lt fits]

/-- The bytes of a word are put together as the standard does. -/
theorem blockWord_eq (block : Bytes) (t : ℕ) : blockWord block t = word block t := by
  unfold blockWord word
  generalize block.getD (t * 4) 0 = a
  generalize block.getD (t * 4 + 1) 0 = b
  generalize block.getD (t * 4 + 2) 0 = c
  generalize block.getD (t * 4 + 3) 0 = d
  have ha := a.toNat_lt
  have hb := b.toNat_lt
  have hc := c.toNat_lt
  have hd := d.toNat_lt
  have shiftA : (a.toUInt32 <<< 24).toNat = a.toNat <<< 24 := toNat_shift a (by decide)
  have shiftB : (b.toUInt32 <<< 16).toNat = b.toNat <<< 16 := toNat_shift b (by decide)
  have shiftC : (c.toUInt32 <<< 8).toNat = c.toNat <<< 8 := toNat_shift c (by decide)
  have first : a.toNat <<< 24 ||| b.toNat <<< 16 = (a.toNat * 256 + b.toNat) <<< 16 := by
    rw [shift_or (by rw [Nat.shiftLeft_eq]; omega), Nat.shiftLeft_eq, Nat.shiftLeft_eq]
    ring
  have second : (a.toNat * 256 + b.toNat) <<< 16 ||| c.toNat <<< 8 =
      ((a.toNat * 256 + b.toNat) * 256 + c.toNat) <<< 8 := by
    rw [shift_or (by rw [Nat.shiftLeft_eq]; omega), Nat.shiftLeft_eq, Nat.shiftLeft_eq]
    ring
  apply UInt32.toNat_inj.mp
  rw [UInt32.toNat_or, UInt32.toNat_or, UInt32.toNat_or, shiftA, shiftB, shiftC,
    UInt8.toNat_toUInt32, first, second, shift_or (by omega), UInt32.toNat_ofNat']
  omega

/-- The functions of the rounds are those of the standard. -/
theorem roundWord_eq (t : ℕ) (b c d : UInt32) :
    roundWord t b c d = logical t b c d + constant t := by
  have choice : (b &&& c) ||| (~~~b &&& d) = (b &&& c) ^^^ (~~~b &&& d) := by
    apply UInt32.toBitVec_inj.mp
    ext i
    simp only [UInt32.toBitVec_or, UInt32.toBitVec_and, UInt32.toBitVec_not, UInt32.toBitVec_xor,
      BitVec.getElem_or, BitVec.getElem_and, BitVec.getElem_not, BitVec.getElem_xor]
    cases b.toBitVec[i] <;> simp
  have majority : (b &&& c) ||| (b &&& d) ||| (c &&& d) =
      (b &&& c) ^^^ (b &&& d) ^^^ (c &&& d) := by
    apply UInt32.toBitVec_inj.mp
    ext i
    simp only [UInt32.toBitVec_or, UInt32.toBitVec_and, UInt32.toBitVec_xor, BitVec.getElem_or,
      BitVec.getElem_and, BitVec.getElem_xor]
    cases b.toBitVec[i] <;> cases c.toBitVec[i] <;> simp
  unfold roundWord logical constant
  rw [choice, majority]
  split_ifs <;> rfl

/-- The loop fills the schedule in. -/
theorem extendWords_foldl (block : Bytes) (count : ℕ) :
    (List.range' 16 count).foldl extendWords ((List.range 16).map (blockWord block)) =
      (List.range (16 + count)).map (schedule block) := by
  induction count with
  | zero =>
    apply List.map_congr_left
    intro t inside
    rw [schedule, if_pos (List.mem_range.mp inside), blockWord_eq]
  | succ count ih =>
    rw [List.range'_concat, List.foldl_append, ih, ← Nat.add_assoc, List.range_succ,
      List.map_append]
    have row (back : ℕ) (positive : 0 < back) (inside : back ≤ 16) :
        ((List.range (16 + count)).map (schedule block)).getD (16 + count - back) 0 =
          schedule block (16 + count - back) := by
      rw [List.getD_eq_getElem?_getD, List.getElem?_map, List.getElem?_range (by omega)]
      rfl
    have last : schedule block (16 + count) = rotate 1
        (schedule block (16 + count - 3) ^^^ schedule block (16 + count - 8) ^^^
          schedule block (16 + count - 14) ^^^ schedule block (16 + count - 16)) := by
      rw [schedule, if_neg (by omega)]
    have turned (x : UInt32) : sha1CircularShift 1 x = rotate 1 x :=
      sha1CircularShift_eq (by decide) (by decide) x
    rw [Nat.one_mul, List.foldl_cons, List.foldl_nil, extendWords, row 3 (by decide) (by decide),
      row 8 (by decide) (by decide), row 14 (by decide) (by decide),
      row 16 (by decide) (by decide), turned, ← last]
    rfl

/-- A round on the filled schedule is one of the standard. -/
theorem mixRound_eq {w : List UInt32} {block : Bytes} {t : ℕ} (row : w.getD t 0 = schedule block t)
    (s : Digest) : mixRound w s t = Standard.round block s t := by
  have order (r l k e x : UInt32) : r + (l + k) + e + x = r + l + e + k + x := by ac_rfl
  have five : sha1CircularShift 5 s.a = rotate 5 s.a :=
    sha1CircularShift_eq (by decide) (by decide) s.a
  have thirty : sha1CircularShift 30 s.b = rotate 30 s.b :=
    sha1CircularShift_eq (by decide) (by decide) s.b
  rw [mixRound, row, Standard.round, five, thirty, roundWord_eq, order]

/-- Rounds on the filled schedule are those of the standard. -/
theorem mixRound_foldl {w : List UInt32} {block : Bytes} {ts : List ℕ}
    (rows : ∀ t ∈ ts, w.getD t 0 = schedule block t) (s : Digest) :
    ts.foldl (mixRound w) s = ts.foldl (Standard.round block) s := by
  induction ts generalizing s with
  | nil => rfl
  | cons t ts ih =>
    obtain ⟨row, rest⟩ := List.forall_mem_cons.mp rows
    rw [List.foldl_cons, List.foldl_cons, mixRound_eq row]
    exact ih rest _

/-- Blocks are compressed as the standard does. -/
theorem mixBlock_eq (digest : Digest) (block : Bytes) :
    mixBlock digest block = compress digest block := by
  have words : wordSequence block = (List.range 80).map (schedule block) :=
    extendWords_foldl block 64
  have rows : ∀ t ∈ List.range 80, (wordSequence block).getD t 0 = schedule block t := by
    intro t inside
    rw [words, List.getD_eq_getElem?_getD, List.getElem?_map,
      List.getElem?_range (List.mem_range.mp inside)]
    rfl
  rw [mixBlock, compress, mixRound_foldl rows]

/-! ## Calls -/

/-- The context after `SHA1Result`. -/
def sha1Finish (context : SHA1Context) : SHA1Context :=
  if context.corrupted || context.computed then context
  else { context with
    messageDigest := sha1PadMessage context
    messageBlock := []
    computed := true }

/-- A call on a context. -/
inductive Sha1Call
  /-- `SHA1Input`. -/
  | input (message : Bytes)
  /-- `SHA1Result`. -/
  | result
deriving DecidableEq

/-- What `SHA1Result` answers, call after call: the digest where it succeeds. -/
def sha1Answers : SHA1Context → List Sha1Call → List (Option Digest)
  | _, [] => []
  | context, .input message :: calls => sha1Answers (sha1Input context message) calls
  | context, .result :: calls => sha1Result context :: sha1Answers (sha1Finish context) calls

/-- What a context is for: a message is collected and then finished. -/
inductive Hashing
  /-- The pieces so far. -/
  | collecting (message : Bytes)
  /-- The message that was asked for. -/
  | finished (message : Bytes)
  /-- More bits than the counter holds, or a piece after an answer. -/
  | failed

/-- One more piece. -/
def Hashing.input : Hashing → Bytes → Hashing
  | .collecting message, piece =>
    if (message ++ piece).length < 2 ^ 61 then .collecting (message ++ piece) else .failed
  | .finished message, piece => if piece = [] then .finished message else .failed
  | .failed, _ => .failed

/-- The digest is asked for. -/
def Hashing.finish : Hashing → Hashing
  | .collecting message => .finished message
  | other => other

/-- The digest of the standard. -/
def Hashing.result : Hashing → Option Digest
  | .collecting message | .finished message => some (sha1 message)
  | .failed => none

/-- What is answered, call after call. -/
def Hashing.answers : Hashing → List Sha1Call → List (Option Digest)
  | _, [] => []
  | hashing, .input message :: calls => (hashing.input message).answers calls
  | hashing, .result :: calls => hashing.result :: hashing.finish.answers calls

/-- The context that has collected a message. -/
def collected (message : Bytes) : SHA1Context where
  messageDigest := (blocks 64 message).foldl compress initial
  lengthLow := UInt32.ofNat (8 * message.length)
  lengthHigh := UInt32.ofNat (8 * message.length / 2 ^ 32)
  messageBlock := leftOver 64 message
  computed := false
  corrupted := false

/-- How a context stands for what it is for. -/
def Hashing.Represents (context : SHA1Context) : Hashing → Prop
  | .collecting message => message.length < 2 ^ 61 ∧ context = collected message
  | .finished message => context.corrupted = false ∧ context.computed = true ∧
      context.messageDigest = sha1 message
  | .failed => context.corrupted = true

/-! ## Input -/

variable {context : SHA1Context} {message : Bytes} {hashing : Hashing}

/-- The two words of the counter. -/
theorem fillByte_collected (byte : UInt8) (fits : message.length < 2 ^ 61) :
    fillByte (collected message) byte = { collected message with
      messageBlock := leftOver 64 message ++ [byte]
      lengthLow := UInt32.ofNat (8 * (message.length + 1))
      lengthHigh := UInt32.ofNat (8 * (message.length + 1) / 2 ^ 32)
      corrupted := decide (message.length + 1 = 2 ^ 61) } := by
  have low : UInt32.ofNat (8 * message.length) + 8 = UInt32.ofNat (8 * (message.length + 1)) := by
    rw [Nat.mul_add, UInt32.ofNat_add]
    rfl
  have zero (number : ℕ) : UInt32.ofNat number = 0 ↔ number % 2 ^ 32 = 0 := by
    rw [← UInt32.toNat_inj, UInt32.toNat_ofNat']
    rfl
  have high : (if UInt32.ofNat (8 * (message.length + 1)) = 0 then
      UInt32.ofNat (8 * message.length / 2 ^ 32) + 1 else
        UInt32.ofNat (8 * message.length / 2 ^ 32)) =
          UInt32.ofNat (8 * (message.length + 1) / 2 ^ 32) := by
    split_ifs with wraps
    · rw [zero] at wraps
      have more : 8 * (message.length + 1) / 2 ^ 32 = 8 * message.length / 2 ^ 32 + 1 := by omega
      rw [more, UInt32.ofNat_add]
      rfl
    · rw [zero] at wraps
      have same : 8 * (message.length + 1) / 2 ^ 32 = 8 * message.length / 2 ^ 32 := by omega
      rw [same]
  have full : (decide (UInt32.ofNat (8 * (message.length + 1)) = 0) &&
      decide (UInt32.ofNat (8 * (message.length + 1) / 2 ^ 32) = 0)) =
        decide (message.length + 1 = 2 ^ 61) := by
    rw [← Bool.decide_and, decide_eq_decide, zero, zero]
    omega
  unfold fillByte
  simp only [collected, low, high, full]

/-- A byte is collected, unless the counter is full. -/
theorem inputByte_collected (byte : UInt8) (fits : message.length < 2 ^ 61) :
    if message.length + 1 < 2 ^ 61 then
      inputByte (collected message) byte = collected (message ++ [byte])
    else (inputByte (collected message) byte).corrupted = true := by
  have filled := fillByte_collected byte fits
  have intact : (collected message).corrupted = false := rfl
  have step := collect_append (by decide : 0 < 64) compress initial message byte
  unfold inputByte
  rw [intact, if_neg Bool.false_ne_true]
  split_ifs with room full full
  · rw [filled] at full ⊢
    rw [collect, if_pos full] at step
    have short : decide (message.length + 1 = 2 ^ 61) = false := decide_eq_false room.ne
    simp only [sha1ProcessMessageBlock, collected, mixBlock_eq, short, SHA1Context.mk.injEq,
      List.length_append, List.length_singleton, and_true, true_and]
    exact Prod.mk.inj step
  · rw [filled] at full ⊢
    rw [collect, if_neg full] at step
    have short : decide (message.length + 1 = 2 ^ 61) = false := decide_eq_false room.ne
    simp only [collected, short, SHA1Context.mk.injEq, List.length_append, List.length_singleton,
      and_true, true_and]
    exact Prod.mk.inj step
  · rw [filled]
    exact decide_eq_true (by omega)
  · rw [filled]
    exact decide_eq_true (by omega)

/-- A context that is corrupted stays so. -/
theorem foldl_inputByte_corrupted (corrupted : context.corrupted = true) (piece : Bytes) :
    piece.foldl inputByte context = context := by
  induction piece with
  | nil => rfl
  | cons byte piece ih =>
    have same : inputByte context byte = context := by
      unfold inputByte
      rw [corrupted, if_pos rfl]
    rw [List.foldl_cons, same]
    exact ih

/-- A piece is collected, unless the counter is full. -/
theorem foldl_inputByte_collected (piece : Bytes) (fits : message.length < 2 ^ 61) :
    if (message ++ piece).length < 2 ^ 61 then
      piece.foldl inputByte (collected message) = collected (message ++ piece)
    else (piece.foldl inputByte (collected message)).corrupted = true := by
  induction piece generalizing message with
  | nil =>
    rw [List.append_nil, if_pos fits]
    rfl
  | cons byte piece ih =>
    have step := inputByte_collected byte fits
    have grown : (message ++ byte :: piece).length = message.length + 1 + piece.length := by
      rw [List.length_append, List.length_cons]
      omega
    by_cases room : message.length + 1 < 2 ^ 61
    · rw [if_pos room] at step
      rw [List.foldl_cons, step, List.append_cons]
      exact ih (by rwa [List.length_append, List.length_singleton])
    · rw [if_neg room] at step
      rw [if_neg (by omega), List.foldl_cons, foldl_inputByte_corrupted step]
      exact step

/-- `SHA1Input` takes a piece. -/
theorem Hashing.Represents.input (stands : hashing.Represents context) (piece : Bytes) :
    (hashing.input piece).Represents (sha1Input context piece) := by
  unfold sha1Input
  cases hashing with
  | collecting message =>
    obtain ⟨fits, rfl⟩ := stands
    have taken := foldl_inputByte_collected piece fits
    have going : ((collected message).computed || (collected message).corrupted) = false := rfl
    rw [going, if_neg Bool.false_ne_true]
    simp only [Hashing.input]
    by_cases empty : piece = []
    · rw [if_pos empty, empty, List.append_nil, if_pos fits]
      exact ⟨fits, rfl⟩
    · rw [if_neg empty]
      by_cases room : (message ++ piece).length < 2 ^ 61
      · rw [if_pos room] at taken ⊢
        exact ⟨room, taken⟩
      · rw [if_neg room] at taken ⊢
        exact taken
  | finished message =>
    obtain ⟨intact, computed, same⟩ := stands
    simp only [Hashing.input]
    by_cases empty : piece = []
    · rw [if_pos empty, if_pos empty]
      exact ⟨intact, computed, same⟩
    · rw [if_neg empty, if_neg empty, computed, Bool.true_or, if_pos rfl]
      rfl
  | failed =>
    have corrupted : context.corrupted = true := stands
    by_cases empty : piece = []
    · rw [if_pos empty]
      exact corrupted
    · rw [if_neg empty, corrupted, Bool.or_true, if_pos rfl]
      rfl

/-! ## Results -/

/-- A byte of a word. -/
theorem toUInt8_shift (word : UInt32) {i : ℕ} (inside : i ≤ 24) :
    (word >>> UInt32.ofNat i).toUInt8 = UInt8.ofNat (word.toNat / 2 ^ i) := by
  have amount : (UInt32.ofNat i).toNat % 32 = i := by
    rw [UInt32.toNat_ofNat']
    omega
  apply UInt8.toNat_inj.mp
  rw [UInt32.toNat_toUInt8, UInt32.toNat_shiftRight, amount, Nat.shiftRight_eq_div_pow,
    UInt8.toNat_ofNat']

/-- The counter is written as the standard does. -/
theorem lengthBytes_collected (fits : message.length < 2 ^ 61) :
    lengthBytes (collected message) = bigEndian 8 (8 * message.length) := by
  have high : (UInt32.ofNat (8 * message.length / 2 ^ 32)).toNat = 8 * message.length / 2 ^ 32 := by
    rw [UInt32.toNat_ofNat']
    omega
  have low : (UInt32.ofNat (8 * message.length)).toNat = 8 * message.length % 2 ^ 32 :=
    UInt32.toNat_ofNat'
  have upper (i : ℕ) (inside : i ≤ 24) :
      (UInt32.ofNat (8 * message.length / 2 ^ 32) >>> UInt32.ofNat i).toUInt8 =
        UInt8.ofNat (8 * message.length / (2 ^ 32 * 2 ^ i)) := by
    rw [toUInt8_shift _ inside, high, Nat.div_div_eq_div_mul]
  have lower (i : ℕ) (inside : i ≤ 24) :
      (UInt32.ofNat (8 * message.length) >>> UInt32.ofNat i).toUInt8 =
        UInt8.ofNat (8 * message.length / 2 ^ i) := by
    have power : 2 ^ 32 = 2 ^ i * (256 * 2 ^ (24 - i)) := by
      rw [show (256 : ℕ) = 2 ^ 8 from rfl, ← pow_add, ← pow_add]
      congr 1
      omega
    rw [toUInt8_shift _ inside, low, power, Nat.mod_mul_right_div_self]
    apply UInt8.toNat_inj.mp
    rw [UInt8.toNat_ofNat', UInt8.toNat_ofNat', show (2 : ℕ) ^ 8 = 256 from rfl,
      Nat.mod_mul_right_mod]
  have highest := upper 0 (by decide)
  have lowest := lower 0 (by decide)
  rw [show UInt32.ofNat 0 = 0 from rfl, UInt32.shiftRight_zero] at highest lowest
  have printed : lengthBytes (collected message) =
      [UInt8.ofNat (8 * message.length / (2 ^ 32 * 2 ^ 24)),
        UInt8.ofNat (8 * message.length / (2 ^ 32 * 2 ^ 16)),
        UInt8.ofNat (8 * message.length / (2 ^ 32 * 2 ^ 8)),
        UInt8.ofNat (8 * message.length / (2 ^ 32 * 2 ^ 0)),
        UInt8.ofNat (8 * message.length / 2 ^ 24), UInt8.ofNat (8 * message.length / 2 ^ 16),
        UInt8.ofNat (8 * message.length / 2 ^ 8), UInt8.ofNat (8 * message.length / 2 ^ 0)] := by
    rw [← upper 24 (by decide), ← upper 16 (by decide), ← upper 8 (by decide), ← highest,
      ← lower 24 (by decide), ← lower 16 (by decide), ← lower 8 (by decide), ← lowest]
    rfl
  rw [printed]
  rfl

/-- The blocks that are made of what is left over end the padded message. -/
theorem paddedBlocks_collected (fits : message.length < 2 ^ 61) :
    blocks 64 message ++ paddedBlocks (collected message) =
      blocks 64 (message ++ padding message.length) := by
  have short := length_leftOver_lt (by decide : 0 < 64) message
  have rest := @length_leftOver _ 64 message
  have last := lengthBytes_collected fits
  have eight : (bigEndian 8 (8 * message.length)).length = 8 := rfl
  rw [blocks_append (by decide), List.append_cancel_left_eq]
  unfold paddedBlocks padding markedBlock
  simp only [last, List.length_append, List.length_singleton]
  change (if (leftOver 64 message).length > 55 then _ else _) = _
  split_ifs with long
  · -- the mark and zeros fill one block, and a second one holds the number of bits
    have zeros : (119 - message.length % 64) % 64 =
        64 - ((leftOver 64 message).length + 1) + 56 := by
      omega
    have first : (leftOver 64 message ++ [0x80] ++
        List.replicate (64 - ((leftOver 64 message).length + 1)) 0).length = 64 := by
      simp only [List.length_append, List.length_singleton, List.length_replicate]
      omega
    have second : (List.replicate 56 0 ++ bigEndian 8 (8 * message.length)).length = 64 := by
      rw [List.length_append, List.length_replicate, eight]
    have whole : leftOver 64 message ++ ([0x80] ++ List.replicate
        ((119 - message.length % 64) % 64) 0 ++ bigEndian 8 (8 * message.length)) =
          (leftOver 64 message ++ [0x80] ++
            List.replicate (64 - ((leftOver 64 message).length + 1)) 0) ++
              (List.replicate 56 0 ++ bigEndian 8 (8 * message.length)) := by
      rw [zeros, List.replicate_add]
      simp only [List.append_assoc]
    rw [whole, blocks_append (by decide), blocks_of_eq (by decide) first, leftOver_of_eq first,
      List.nil_append, blocks_of_eq (by decide) second]
    rfl
  · have zeros : (119 - message.length % 64) % 64 = 56 - ((leftOver 64 message).length + 1) := by
      omega
    have whole : (leftOver 64 message ++ [0x80] ++
        List.replicate (56 - ((leftOver 64 message).length + 1)) 0 ++
          bigEndian 8 (8 * message.length)).length = 64 := by
      simp only [List.length_append, List.length_singleton, List.length_replicate, eight]
      omega
    rw [zeros, ← List.append_assoc, ← List.append_assoc, blocks_of_eq (by decide) whole]
    rfl

/-- The digest of a collected message is that of the standard. -/
theorem sha1PadMessage_collected (fits : message.length < 2 ^ 61) :
    sha1PadMessage (collected message) = sha1 message := by
  have same : mixBlock = compress := funext₂ mixBlock_eq
  rw [sha1PadMessage, same, sha1, ← paddedBlocks_collected fits, List.foldl_append]
  rfl

/-- `SHA1Result` answers the digest. -/
theorem Hashing.Represents.result (stands : hashing.Represents context) :
    sha1Result context = hashing.result := by
  unfold sha1Result
  cases hashing with
  | collecting message =>
    obtain ⟨fits, rfl⟩ := stands
    exact congrArg some (sha1PadMessage_collected fits)
  | finished message =>
    obtain ⟨intact, computed, same⟩ := stands
    rw [intact, if_neg Bool.false_ne_true, computed, if_pos rfl, same]
    rfl
  | failed =>
    have corrupted : context.corrupted = true := stands
    rw [corrupted, if_pos rfl]
    rfl

/-- `SHA1Result` finishes the message. -/
theorem Hashing.Represents.finish (stands : hashing.Represents context) :
    hashing.finish.Represents (sha1Finish context) := by
  unfold sha1Finish
  cases hashing with
  | collecting message =>
    obtain ⟨fits, rfl⟩ := stands
    exact ⟨rfl, rfl, sha1PadMessage_collected fits⟩
  | finished message =>
    obtain ⟨intact, computed, same⟩ := stands
    rw [computed, Bool.or_true, if_pos rfl]
    exact ⟨intact, computed, same⟩
  | failed =>
    have corrupted : context.corrupted = true := stands
    rw [corrupted, Bool.true_or, if_pos rfl]
    exact corrupted

/-- What a context stands for decides every later answer. -/
theorem Hashing.Represents.answers (stands : hashing.Represents context) (calls : List Sha1Call) :
    sha1Answers context calls = hashing.answers calls := by
  induction calls generalizing context hashing with
  | nil => rfl
  | cons call calls ih =>
    cases call with
    | input piece => exact ih (stands.input piece)
    | result =>
      rw [sha1Answers, Hashing.answers, stands.result, ih stands.finish]

/-- A context that was reset has collected nothing. -/
theorem sha1Reset_represents : (Hashing.collecting []).Represents sha1Reset := by
  refine ⟨by decide, ?_⟩
  rw [collected, blocks_nil, leftOver_nil]
  rfl

/-- Over every sequence of calls after `SHA1Reset`, and however the message is cut into pieces, a
context answers what the standard says: the digest of all pieces, unless they reach 2 ^ 64 bits or
one came after an answer. -/
theorem sha1_refines (calls : List Sha1Call) :
    sha1Answers sha1Reset calls = (Hashing.collecting []).answers calls := by
  exact sha1Reset_represents.answers calls

/-- The digest of `abc`, given in two pieces. -/
example : sha1Answers sha1Reset [.input (bytes "a"), .input (bytes "bc"), .result] =
    [some ⟨0xA9993E36, 0x4706816A, 0xBA3E2571, 0x7850C26C, 0x9CD0D89D⟩] := by
  decide +kernel

/-- The hash of a text is the exclusive or of the five words of its digest. -/
theorem hashFunction_eq {key : Bytes} (fits : key.length < 2 ^ 61) :
    hashFunction key = (sha1 key).a ^^^ (sha1 key).b ^^^ (sha1 key).c ^^^ (sha1 key).d ^^^
      (sha1 key).e := by
  have answered := (sha1Reset_represents.input key).result
  simp only [Hashing.input, List.nil_append, if_pos fits, Hashing.result] at answered
  rw [hashFunction, answered]

end TinyTools.Chord
