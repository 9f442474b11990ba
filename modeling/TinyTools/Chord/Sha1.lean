import TinyTools.Lib.Decimal

/-!
# The hash of a text

`SHA1Context` collects bytes in a block of 64 and mixes every full block into five words; the hash
of a text is the exclusive or of the five. The array of the block and its index are modelled by the
bytes in front of the index, so a byte is never written behind the array exactly when fewer than
64 bytes are collected whenever one is added.
-/

namespace TinyTools.Chord

open TinyTools.Lib

/-! ## The source -/

/-- `Message_Digest`, or the word buffers `A` to `E`. -/
structure Digest where
  /-- The first word. -/
  a : UInt32
  /-- The second word. -/
  b : UInt32
  /-- The third word. -/
  c : UInt32
  /-- The fourth word. -/
  d : UInt32
  /-- The fifth word. -/
  e : UInt32
deriving DecidableEq

/-- `SHA1Context`. -/
structure SHA1Context where
  /-- `Message_Digest`. -/
  messageDigest : Digest
  /-- `Length_Low`. -/
  lengthLow : UInt32
  /-- `Length_High`. -/
  lengthHigh : UInt32
  /-- `Message_Block` in front of `Message_Block_Index`. -/
  messageBlock : Bytes
  /-- `Computed`. -/
  computed : Bool
  /-- `Corrupted`. -/
  corrupted : Bool
deriving DecidableEq

/-- `SHA1CircularShift`. -/
def sha1CircularShift (bits word : UInt32) : UInt32 := (word <<< bits) ||| (word >>> (32 - bits))

/-- `SHA1Reset`. -/
def sha1Reset : SHA1Context where
  messageDigest := ⟨0x67452301, 0xEFCDAB89, 0x98BADCFE, 0x10325476, 0xC3D2E1F0⟩
  lengthLow := 0
  lengthHigh := 0
  messageBlock := []
  computed := false
  corrupted := false

/-- One of the first sixteen words of the sequence `W`. -/
def blockWord (block : Bytes) (t : ℕ) : UInt32 :=
  ((block.getD (t * 4) 0).toUInt32 <<< 24) ||| ((block.getD (t * 4 + 1) 0).toUInt32 <<< 16) |||
    ((block.getD (t * 4 + 2) 0).toUInt32 <<< 8) ||| (block.getD (t * 4 + 3) 0).toUInt32

/-- One more word of the sequence `W`. -/
def extendWords (w : List UInt32) (t : ℕ) : List UInt32 :=
  w ++ [sha1CircularShift 1
    (w.getD (t - 3) 0 ^^^ w.getD (t - 8) 0 ^^^ w.getD (t - 14) 0 ^^^ w.getD (t - 16) 0)]

/-- The word sequence `W` of a block. -/
def wordSequence (block : Bytes) : List UInt32 :=
  (List.range' 16 64).foldl extendWords ((List.range 16).map (blockWord block))

/-- The function and the constant of a round. -/
def roundWord (t : ℕ) (b c d : UInt32) : UInt32 :=
  if t < 20 then ((b &&& c) ||| (~~~b &&& d)) + 0x5A827999
  else if t < 40 then (b ^^^ c ^^^ d) + 0x6ED9EBA1
  else if t < 60 then ((b &&& c) ||| (b &&& d) ||| (c &&& d)) + 0x8F1BBCDC
  else (b ^^^ c ^^^ d) + 0xCA62C1D6

/-- One round of the four loops. -/
def mixRound (w : List UInt32) (s : Digest) (t : ℕ) : Digest :=
  ⟨sha1CircularShift 5 s.a + roundWord t s.b s.c s.d + s.e + w.getD t 0, s.a,
    sha1CircularShift 30 s.b, s.c, s.d⟩

/-- `SHA1ProcessMessageBlock` on the digest. -/
def mixBlock (digest : Digest) (block : Bytes) : Digest :=
  let s := (List.range 80).foldl (mixRound (wordSequence block)) digest
  ⟨digest.a + s.a, digest.b + s.b, digest.c + s.c, digest.d + s.d, digest.e + s.e⟩

/-- `SHA1ProcessMessageBlock`. -/
def sha1ProcessMessageBlock (context : SHA1Context) : SHA1Context :=
  { context with
    messageDigest := mixBlock context.messageDigest context.messageBlock
    messageBlock := [] }

/-- A byte is written at the index and counted. -/
def fillByte (context : SHA1Context) (byte : UInt8) : SHA1Context :=
  let low := context.lengthLow + 8
  let high := if low = 0 then context.lengthHigh + 1 else context.lengthHigh
  { context with
    messageBlock := context.messageBlock ++ [byte]
    lengthLow := low
    lengthHigh := high
    corrupted := low = 0 && high = 0 }

/-- One pass of the loop of `SHA1Input`. -/
def inputByte (context : SHA1Context) (byte : UInt8) : SHA1Context :=
  if context.corrupted then context
  else if (fillByte context byte).messageBlock.length = 64 then
    sha1ProcessMessageBlock (fillByte context byte)
  else fillByte context byte

/-- `SHA1Input`. -/
def sha1Input (context : SHA1Context) (message : Bytes) : SHA1Context :=
  if message = [] then context
  else if context.computed || context.corrupted then { context with corrupted := true }
  else message.foldl inputByte context

/-- The last eight bytes of the message: its length. -/
def lengthBytes (context : SHA1Context) : Bytes :=
  [(context.lengthHigh >>> 24).toUInt8, (context.lengthHigh >>> 16).toUInt8,
    (context.lengthHigh >>> 8).toUInt8, context.lengthHigh.toUInt8,
    (context.lengthLow >>> 24).toUInt8, (context.lengthLow >>> 16).toUInt8,
    (context.lengthLow >>> 8).toUInt8, context.lengthLow.toUInt8]

/-- The block with the first padding bit. -/
def markedBlock (context : SHA1Context) : Bytes := context.messageBlock ++ [0x80]

/-- The blocks that `SHA1PadMessage` makes of the collected bytes. -/
def paddedBlocks (context : SHA1Context) : List Bytes :=
  let marked := markedBlock context
  if context.messageBlock.length > 55 then
    [marked ++ List.replicate (64 - marked.length) 0,
      List.replicate 56 0 ++ lengthBytes context]
  else [marked ++ List.replicate (56 - marked.length) 0 ++ lengthBytes context]

/-- `SHA1PadMessage` on the digest. -/
def sha1PadMessage (context : SHA1Context) : Digest :=
  (paddedBlocks context).foldl mixBlock context.messageDigest

/-- `SHA1Result` for a message that has just been input. -/
def sha1Result (context : SHA1Context) : Option Digest :=
  if context.corrupted then none
  else if context.computed then some context.messageDigest
  else some (sha1PadMessage context)

/-- `hashFunction`, and `hash` of the query client. -/
def hashFunction (key : Bytes) : UInt32 :=
  match sha1Result (sha1Input sha1Reset key) with
  | none => 0
  | some digest => digest.a ^^^ digest.b ^^^ digest.c ^^^ digest.d ^^^ digest.e

/-! ## The bounds of the block -/

/-- Fewer than 64 bytes are collected before and after every byte of input. -/
theorem inputByte_block {context : SHA1Context} (room : context.messageBlock.length < 64)
    (byte : UInt8) : (inputByte context byte).messageBlock.length < 64 := by
  have filled : (fillByte context byte).messageBlock.length = context.messageBlock.length + 1 := by
    rw [fillByte, List.length_append, List.length_singleton]
  unfold inputByte
  split_ifs with corrupted full
  · exact room
  · exact Nat.zero_lt_succ 63
  · omega

/-- No input writes behind the block. -/
theorem sha1Input_block (message : Bytes) {context : SHA1Context}
    (room : context.messageBlock.length < 64) :
    (sha1Input context message).messageBlock.length < 64 := by
  have bytewise : (message.foldl inputByte context).messageBlock.length < 64 := by
    induction message generalizing context with
    | nil => exact room
    | cons byte rest ih => exact ih (inputByte_block room byte)
  unfold sha1Input
  split_ifs
  · exact room
  · exact room
  · exact bytewise

/-- Every padded block is a full one. -/
theorem paddedBlocks_length {context : SHA1Context} (room : context.messageBlock.length < 64) :
    ∀ block ∈ paddedBlocks context, block.length = 64 := by
  intro block member
  have marked : (markedBlock context).length = context.messageBlock.length + 1 := by
    rw [markedBlock, List.length_append, List.length_singleton]
  have last : (lengthBytes context).length = 8 := rfl
  unfold paddedBlocks at member
  dsimp only at member
  split_ifs at member with long
  · simp only [List.mem_cons, List.not_mem_nil, or_false] at member
    cases member with
    | inl first =>
      rw [first, List.length_append, List.length_replicate, marked]
      omega
    | inr second => rw [second, List.length_append, List.length_replicate, last]
  · rw [List.mem_singleton] at member
    rw [member, List.length_append, List.length_append, List.length_replicate, marked, last]
    omega

end TinyTools.Chord
