import TinyTools.Chord.Commands

/-!
# A Chord node

The global variables of one process, the messages its peers send, and what each of them does. Keys
are `unsigned int`, so every comparison of the source is one of `UInt32`; a node is addressed by its
port on the local host. The key of a port is a parameter of the model.
-/

namespace TinyTools.Chord

open TinyTools.Lib

/-- `node`. -/
structure Node where
  /-- The port the node listens on. -/
  port : ℕ
  /-- The position on the ring. -/
  key : UInt32
deriving DecidableEq

/-- `entry`: a row of the finger table. -/
structure Entry where
  /-- The position the row looks for. -/
  start : UInt32
  /-- The node found there. -/
  nodeInfo : Node
deriving DecidableEq

/-- The global variables of a process. -/
structure NodeState where
  /-- `localNode`. -/
  localNode : Node
  /-- `postnode`: the successor. -/
  postnode : Node
  /-- `postnode2`: the successor of the successor. -/
  postnode2 : Node
  /-- `prenode`: the predecessor, a null pointer while none is known. -/
  prenode : Option Node
  /-- `fin_tb`. -/
  finTb : Fin 32 → Entry

/-! ## Messages -/

/-- The messages a node answers. -/
inductive Message
  /-- A new node asks for its successor. -/
  | join (port : ℕ)
  /-- Ask for the port responsible for a hash. -/
  | find (hash : UInt32)
  /-- Ask for the predecessor. -/
  | stable (port : ℕ)
  /-- Announce a predecessor. -/
  | notify (port : ℕ)
  /-- Announce the successor of the successor. -/
  | keepAlive (port : ℕ)
  /-- Forget the predecessor. -/
  | resetPre
deriving DecidableEq

/-- The message as it is printed; a port is an `int` there. -/
def Message.sent : Message → Sent
  | .join port => .join (Int32.ofNat port)
  | .find hash => .find hash
  | .stable port => .stable (Int32.ofNat port)
  | .notify port => .notify (Int32.ofNat port)
  | .keepAlive port => .keepAlive (Int32.ofNat port)
  | .resetPre => .resetPre

/-- The text a message is sent as. -/
def Message.text (message : Message) : Bytes := message.sent.text

/-- The message that a command is executed for. No argument of `stable` is read, and `query` comes
from no node. -/
def Command.message : Command → Option Message
  | .join port => some (.join port.toNat)
  | .find hash => some (.find hash)
  | .query _ => none
  | .stable => some (.stable 0)
  | .notify port => some (.notify port.toNat)
  | .keepAlive port => some (.keepAlive port.toNat)
  | .resetPre => some .resetPre

/-- A text is received as a message. -/
def Message.read (msg : Bytes) : Option Message :=
  match receive msg with
  | .command c => c.message
  | _ => none

/-- A message without what is not read of it. -/
def Message.received : Message → Message
  | .stable _ => .stable 0
  | message => message

/-- A port in a reply, read with `atoi`. The source keeps a negative number, which no node sends,
and which like zero is the port of no node. -/
def readPort (text : Bytes) : ℕ := (atoi text).toNat

/-- The port in a message is one of the machine's ports. -/
def Message.Fits : Message → Prop
  | .join port | .stable port | .notify port | .keepAlive port => port < 2 ^ 16
  | .find _ | .resetPre => True

/-- A port that is printed and read back is the same. -/
@[simp]
theorem readPort_decimal {port : ℕ} (fits : port < 2 ^ 16) : readPort (decimal port) = port := by
  rw [readPort, atoi_decimal (by omega)]
  rfl

/-- Every message is read as it was meant. -/
theorem Message.read_text {message : Message} (fits : message.Fits) :
    Message.read message.text = some message.received := by
  have same {port : ℕ} (fits : port < 2 ^ 16) : (Int32.ofNat port).toInt.toNat = port := by
    rw [Int32.toInt_ofNat_of_lt (by omega), Int.toNat_natCast]
  rw [read, text, Sent.receive_text]
  cases message with
  | join port => exact congrArg (some ∘ Message.join) (same fits)
  | notify port => exact congrArg (some ∘ Message.notify) (same fits)
  | keepAlive port => exact congrArg (some ∘ Message.keepAlive) (same fits)
  | find hash | stable port | resetPre => rfl

/-! ## The working functions -/

/-- The three comparisons of the finger scan. -/
def fingerInside (localKey fingerKey hash : UInt32) : Bool :=
  (localKey < fingerKey && fingerKey < hash) || (hash < localKey && fingerKey > localKey) ||
    (hash < localKey && fingerKey < hash)

/-- The finger the scan stops at, from the highest row down. -/
def scanFingers (s : NodeState) (hash : UInt32) : Option (Fin 32) :=
  (List.finRange 32).reverse.find? fun i =>
    fingerInside s.localNode.key (s.finTb i).nodeInfo.key hash

/-- `findClosestPort`: `ask` is the exchange with a finger, which answers zero when the finger
cannot be reached and nothing when it never replies. -/
def findClosestPort (ask : ℕ → UInt32 → Option ℕ) (s : NodeState) (hash : UInt32) : Option ℕ :=
  if hash > s.localNode.key ∧ hash ≤ s.postnode.key then some s.postnode.port
  else if (hash > s.localNode.key ∨ hash < s.postnode.key) ∧ s.localNode.key > s.postnode.key then
    some s.postnode.port
  else match scanFingers s hash with
    | some i => ask (s.finTb i).nodeInfo.port hash
    | none => some s.localNode.port

/-- `while (result == 0)`: attempts are repeated until one answers a port. -/
def retry (attempt : Option ℕ) : ℕ → Option ℕ
  | 0 => none
  | rounds + 1 => do
    let result ← attempt
    if result = 0 then retry attempt rounds else some result

section

variable (translate : ℕ → UInt32)

/-- A node record for a port, with the key of that port. -/
def nodeAt (port : ℕ) : Node := ⟨port, translate port⟩

/-- The globals `main` starts from: `postnode` is allocated and not yet filled. -/
def startNode (garbage : Node) (port : ℕ) : NodeState where
  localNode := nodeAt translate port
  postnode := garbage
  postnode2 := nodeAt translate port
  prenode := none
  finTb i := ⟨translate port + UInt32.ofNat (2 ^ i.val), nodeAt translate port⟩

/-- `creatFirstNode`. -/
def creatFirstNode (s : NodeState) : NodeState :=
  { s with postnode := s.localNode, prenode := some s.localNode }

/-- The end of `join`: the reply names the successor. -/
def joinReply (s : NodeState) (reply : Bytes) : NodeState :=
  { s with postnode := nodeAt translate (readPort reply) }

/-- The end of `fix_fingers`: the row is refilled with the port found. -/
def fixFinger (s : NodeState) (i : Fin 32) (portNeeded : ℕ) : NodeState :=
  { s with finTb := Function.update s.finTb i ⟨(s.finTb i).start, nodeAt translate portNeeded⟩ }

/-- The successor cannot be reached: its successor takes its place. -/
def takeOver (s : NodeState) : NodeState :=
  { s with
    postnode := nodeAt translate s.postnode2.port
    postnode2 := nodeAt translate s.localNode.port }

/-- The end of `stabilize`: the successor has answered with its predecessor. -/
def stabilizeReply (s : NodeState) (reply : Bytes) : NodeState :=
  let recvPort := readPort reply
  let recvHash := translate recvPort
  if recvPort > 0 then
    if s.postnode.key > s.localNode.key ∧ s.localNode.key < recvHash ∧
        recvHash < s.postnode.key then
      { s with postnode := nodeAt translate recvPort }
    else if s.postnode.key < s.localNode.key ∧ recvPort ≠ s.localNode.port ∧
        (recvHash > s.localNode.key ∨ recvHash < s.postnode.key) then
      { s with postnode := nodeAt translate recvPort }
    else s
  else s

/-- The predecessor cannot be reached by `heartBeat`. -/
def dropPrenode (s : NodeState) : NodeState := { s with prenode := none }

/-! ## The message handler -/

/-- The `join` branch: a node alone takes the new node on both sides, through its predecessor
record, which must exist; any other node looks the key up. -/
def handleJoin (closest : UInt32 → Option ℕ) (s : NodeState) (port : ℕ) :
    Option (NodeState × Bytes) :=
  if s.postnode.port = s.localNode.port then do
    let _ ← s.prenode
    return ({ s with
      postnode := nodeAt translate port
      prenode := some (nodeAt translate port) }, decimal s.localNode.port)
  else do
    let result ← closest (translate port)
    return (s, decimal result)

/-- The `stable` branch. -/
def stableReply (s : NodeState) : Bytes :=
  match s.prenode with
  | none => bytes "0"
  | some prenode => decimal prenode.port

/-- The `notify` branch. -/
def handleNotify (s : NodeState) (result : ℕ) : NodeState :=
  match s.prenode with
  | none => { s with prenode := some (nodeAt translate result) }
  | some prenode =>
    if prenode.key > s.localNode.key ∧
        (translate result > prenode.key ∨ translate result < s.localNode.key) then
      { s with prenode := some (nodeAt translate result) }
    else if prenode.key < s.localNode.key ∧ prenode.key < translate result ∧
        translate result < s.localNode.key then
      { s with prenode := some (nodeAt translate result) }
    else s

/-- `chordNode`: one message, the new state and the reply. -/
def chordNode (closest : UInt32 → Option ℕ) (s : NodeState) :
    Message → Option (NodeState × Bytes)
  | .join port => handleJoin translate closest s port
  | .find hash => (closest hash).map fun result => (s, decimal result)
  | .stable _ => some (s, stableReply s)
  | .notify port => some (handleNotify translate s port, [])
  | .keepAlive port => some ({ s with postnode2 := nodeAt translate port }, [])
  | .resetPre => some (dropPrenode s, [])

/-- A message is handled by what is read of it. -/
@[simp]
theorem chordNode_received (closest : UInt32 → Option ℕ) (s : NodeState) (message : Message) :
    chordNode translate closest s message.received = chordNode translate closest s message := by
  cases message <;> rfl

end

end TinyTools.Chord
