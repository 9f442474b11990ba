import TinyTools.Chord.Sha1
import TinyTools.Lib.CString

/-!
# The position of a port

A node hashes the text of its address, which it appends to a buffer that `malloc` did not clear; the
query client builds the text of the same address on its own, with a blank where the node has a
colon, and in one place another byte behind the blank. The hash is a function of the text alone, so
two places that build different texts agree on a position only where the hash confuses these.
-/

namespace TinyTools.Chord

open TinyTools.Lib

/-! ## The source -/

/-- The text of a port's address. -/
def address (port : ℤ) : Bytes := bytes "127.0.0.1:" ++ signedDecimal port

/-- The text that `translate` hashes, with what the two new buffers hold. -/
def translateText (str strPort : Bytes) (port : ℤ) : Bytes :=
  let str := strcat str (bytes "127.0.0.1:")
  let strPort := printInto strPort (signedDecimal port)
  let str := strcat str (cString strPort)
  cString str

/-- The text that the query client hashes when it has connected, with what its two new buffers
hold. -/
def connectionText (str portstr : Bytes) (port : ℤ) : Bytes :=
  let str := strcat str (bytes "127.0.0.1")
  let str := strcat str (bytes " ")
  let portstr := printInto portstr (signedDecimal port)
  let str := strcat str (cString portstr)
  cString str

/-- The text that the query client hashes for a response; the buffer of 30 bytes is cleared. The
literal that it appends holds a byte behind the blank, which editors do not show. -/
def responseText (str bufResponse : Bytes) : Bytes :=
  let str := List.replicate 30 0 ++ str.drop 30
  let str := strcat str (bytes "127.0.0.1")
  let str := strcat str [32, 0x13]
  let str := strcat str (cString bufResponse)
  cString str

section

variable (hash : Bytes → UInt32)

/-- `translate`. -/
def translate (str strPort : Bytes) (port : ℤ) : UInt32 := hash (translateText str strPort port)

/-- The position the query client prints when it has connected. -/
def connectionPosition (str portstr : Bytes) (port : ℤ) : UInt32 :=
  hash (connectionText str portstr port)

/-- The position the query client prints with a response. -/
def responsePosition (str bufResponse : Bytes) : UInt32 := hash (responseText str bufResponse)

end

/-- What the buffers hold in one call of `translate` and one run of the client. -/
structure Buffers where
  /-- `str` of the node. -/
  str : Bytes
  /-- `strPort` of the node. -/
  strPort : Bytes
  /-- `str` of the client. -/
  clientStr : Bytes
  /-- `portstr` of the client. -/
  portstr : Bytes
  /-- What stands behind the text of a response. -/
  response : Bytes

/-- The node on a port has the position of its address, and the client prints that position when it
connects to the node and when a response names it. -/
structure OnePosition (hash : Bytes → UInt32) (port : ℤ) (b : Buffers) : Prop where
  /-- The key the node computes. -/
  node : translate hash b.str b.strPort port = hash (address port)
  /-- The position printed behind the connection. -/
  connection : connectionPosition hash b.clientStr b.portstr port =
    translate hash b.str b.strPort port
  /-- The position printed with a response. -/
  response : responsePosition hash b.clientStr (printInto b.response (signedDecimal port)) =
    translate hash b.str b.strPort port

/-! ## The texts -/

/-- A printed number holds no zero byte. -/
theorem signedDecimal_free (number : ℤ) : ∀ byte ∈ signedDecimal number, byte ≠ 0 := by
  intro byte printed zero
  rw [zero] at printed
  exact absurd (signedDecimal_byte printed) (by decide)

/-- A text that is checked to hold no zero byte. -/
theorem free_of_all (text : Bytes) (all : text.all (· != 0) = true) :
    ∀ byte ∈ text, byte ≠ 0 := by
  intro byte inside
  simpa using List.all_eq_true.mp all byte inside

variable {port : ℤ}

/-- The node hashes its address behind what the buffer held. -/
theorem translateText_eq (str strPort : Bytes) :
    translateText str strPort port = cString str ++ address port := by
  simp only [translateText, cString_printInto strPort (signedDecimal_free port),
    cString_strcat _ (signedDecimal_free port),
    cString_strcat str (free_of_all (bytes "127.0.0.1:") (by decide)), address,
    List.append_assoc]

/-- The client hashes another text behind what the buffer held. -/
theorem connectionText_eq (str portstr : Bytes) :
    connectionText str portstr port =
      cString str ++ (bytes "127.0.0.1" ++ ([32] ++ signedDecimal port)) := by
  have blank : bytes " " = [32] := by decide
  simp only [connectionText, cString_printInto portstr (signedDecimal_free port),
    cString_strcat _ (signedDecimal_free port),
    cString_strcat _ (free_of_all [32] (by decide)),
    cString_strcat str (free_of_all (bytes "127.0.0.1") (by decide)), blank, List.append_assoc]

/-- With a response the client hashes a third text, in a cleared buffer. -/
theorem responseText_eq (str response : Bytes) :
    responseText str (printInto response (signedDecimal port)) =
      bytes "127.0.0.1" ++ ([32, 0x13] ++ signedDecimal port) := by
  have cleared : cString (List.replicate 30 0 ++ str.drop 30) = [] := rfl
  simp only [responseText, cString_printInto response (signedDecimal_free port),
    cString_strcat _ (signedDecimal_free port),
    cString_strcat _ (free_of_all [32, 0x13] (by decide)),
    cString_strcat _ (free_of_all (bytes "127.0.0.1") (by decide)), cleared,
    List.append_assoc, List.nil_append]

/-- A text that ends with the port behind another byte than the colon is not one that ends with the
address. -/
theorem ne_address {byte : UInt8} (other : byte ≠ 58) (before before' : Bytes) :
    before ++ byte :: signedDecimal port ≠ before' ++ address port := by
  intro same
  have node : bytes "127.0.0.1:" = bytes "127.0.0.1" ++ [58] := by decide
  have split : (before ++ [byte]) ++ signedDecimal port =
      (before' ++ bytes "127.0.0.1" ++ [58]) ++ signedDecimal port := by
    rw [address, node] at same
    simpa only [List.append_assoc, List.cons_append, List.nil_append] using same
  have front := List.append_cancel_right split
  have last := (List.append_inj' front rfl).2
  exact other (List.cons.inj last).1

/-- A function of texts that agrees on two of them whatever it is agrees because they are one. -/
theorem hash_separates {left right : Bytes}
    (agree : ∀ hash : Bytes → UInt32, hash left = hash right) : left = right := by
  by_contra apart
  have marked := agree fun text => if text = left then 1 else 0
  rw [if_pos rfl, if_neg fun same => apart same.symm] at marked
  exact absurd marked (by decide)

/-! ## Agreement -/

/-- A node computes the position of its address exactly when the new buffer happens to start with a
zero byte. -/
theorem translate_address_iff (str strPort : Bytes) (port : ℤ) :
    (∀ hash, translate hash str strPort port = hash (address port)) ↔ cString str = [] := by
  constructor
  · intro agree
    have same : translateText str strPort port = address port := hash_separates agree
    rw [translateText_eq] at same
    exact List.append_left_eq_self.mp same
  · intro empty hash
    rw [translate, translateText_eq, empty, List.nil_append]

/-- On no port, and for no contents of the buffers, does the client hash the text that the node
hashes, neither when it has connected nor with a response; and they do not agree on a position under
any hash that tells the texts apart. -/
theorem onePosition_never (port : ℤ) (b : Buffers) :
    connectionText b.clientStr b.portstr port ≠ translateText b.str b.strPort port ∧
      responseText b.clientStr (printInto b.response (signedDecimal port)) ≠
        translateText b.str b.strPort port ∧
      ∀ hash : Bytes → UInt32,
        hash (connectionText b.clientStr b.portstr port) ≠
            hash (translateText b.str b.strPort port) ∨
          hash (responseText b.clientStr (printInto b.response (signedDecimal port))) ≠
            hash (translateText b.str b.strPort port) →
        ¬ OnePosition hash port b := by
  refine ⟨?_, ?_, fun hash apart agree => ?_⟩
  · rw [connectionText_eq, translateText_eq, ← List.append_assoc]
    exact ne_address (by decide) _ _
  · have split : bytes "127.0.0.1" ++ ([32, 0x13] ++ signedDecimal port) =
        (bytes "127.0.0.1" ++ [32]) ++ 0x13 :: signedDecimal port := by
      rw [List.append_assoc]
      rfl
    rw [responseText_eq, translateText_eq, split]
    exact ne_address (by decide) _ _
  · cases apart with
    | inl connection => exact connection agree.connection
    | inr response => exact response agree.response

/-- With cleared buffers neither position that the client prints for port 4000 is the node's. -/
theorem not_onePosition_cleared :
    connectionPosition hashFunction [] [] 4000 ≠ translate hashFunction [] [] 4000 ∧
      responsePosition hashFunction [] (printInto [] (signedDecimal 4000)) ≠
        translate hashFunction [] [] 4000 ∧
      ¬ OnePosition hashFunction 4000 ⟨[], [], [], [], []⟩ := by
  have connection : connectionPosition hashFunction [] [] 4000 ≠
      translate hashFunction [] [] 4000 := by
    decide +kernel
  have response : responsePosition hashFunction [] (printInto [] (signedDecimal 4000)) ≠
      translate hashFunction [] [] 4000 := by
    decide +kernel
  exact ⟨connection, response, fun agree => connection agree.connection⟩

end TinyTools.Chord
