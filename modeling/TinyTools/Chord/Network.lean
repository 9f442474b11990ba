import TinyTools.Chord.Node

/-!
# Nodes that exchange messages

A network is a set of live nodes, each with the globals of its process. An exchange is a complete
conversation: connecting to a port that no live node listens on fails, and the conversation with a
live node is one message, handled there, and its reply. Lookups cross any number of nodes, so they
run with fuel and answer nothing when it is used up.
-/

namespace TinyTools.Chord

open TinyTools.Lib

/-- The live nodes and the globals of each. -/
structure Network where
  /-- The ports of the live nodes. -/
  members : Finset ℕ
  /-- The globals of the node that listens on a port. -/
  state : ℕ → NodeState

/-- The record of a live node itself. -/
def Network.node (net : Network) (port : ℕ) : Node := (net.state port).localNode

/-- The position of a live node on the ring. -/
def Network.position (net : Network) (port : ℕ) : ℕ := (net.node port).key.toNat

/-- A new node comes alive. -/
def Network.enroll (net : Network) (port : ℕ) (s : NodeState) : Network where
  members := insert port net.members
  state := Function.update net.state port s

/-- Replace the globals of one node. -/
def Network.set (net : Network) (port : ℕ) (s : NodeState) : Network :=
  { net with state := Function.update net.state port s }

/-- The state of a node that was just replaced. -/
@[simp]
theorem Network.set_state_self (net : Network) (port : ℕ) (s : NodeState) :
    (net.set port s).state port = s := Function.update_self ..

/-- The state of every node after one was replaced. -/
theorem Network.set_state (net : Network) (port other : ℕ) (s : NodeState) :
    (net.set port s).state other = if other = port then s else net.state other :=
  Function.update_apply ..

/-- Every other node keeps its state. -/
theorem Network.set_state_of_ne (net : Network) {port other : ℕ} (apart : other ≠ port)
    (s : NodeState) : (net.set port s).state other = net.state other :=
  Function.update_of_ne apart ..

/-- Replacing a node by itself changes nothing. -/
@[simp]
theorem Network.set_same (net : Network) (p : ℕ) : net.set p (net.state p) = net := by
  rw [set, Function.update_eq_self]

section

variable (translate : ℕ → UInt32)

/-! ## Lookups -/

/-- The exchange of a `find` message with a port: zero when nothing listens there, otherwise the
port that node answers after its own lookup. -/
def find (net : Network) : ℕ → ℕ → UInt32 → Option ℕ
  | 0, _, _ => none
  | fuel + 1, port, hash =>
    if port ∈ net.members then do
      let message ← Message.read (Message.find hash).text
      let closest h := retry (findClosestPort (find net fuel) (net.state port) h) (fuel + 1)
      let (_, reply) ← chordNode translate closest (net.state port) message
      return readPort reply
    else some 0

/-- A node's own lookup ends and answers a port. -/
def LooksUp (net : Network) (port : ℕ) (hash : UInt32) (answer : ℕ) : Prop :=
  ∃ fuel, findClosestPort (find translate net fuel) (net.state port) hash = some answer

/-- What a live node answers to `find` is what its lookup answers, retried while it is zero. -/
theorem find_succ {net : Network} {port : ℕ} (live : port ∈ net.members) (fuel : ℕ)
    (hash : UInt32) :
    find translate net (fuel + 1) port hash =
      (retry (findClosestPort (find translate net fuel) (net.state port) hash) (fuel + 1)).map
        fun result => readPort (decimal result) := by
  have received : Message.read (Message.find hash).text = some (.find hash) :=
    Message.read_text trivial
  rw [find, if_pos live, received]
  simp only [Option.bind_eq_bind, Option.bind_some, chordNode, Option.pure_def]
  cases retry (findClosestPort (find translate net fuel) (net.state port) hash) (fuel + 1) <;> rfl

/-- A lookup that answers one of the machine's ports is passed on as it is. -/
theorem find_of_lookup {net : Network} {port answer fuel : ℕ} {hash : UInt32}
    (live : port ∈ net.members) (valid : 0 < answer ∧ answer < 2 ^ 16)
    (found : findClosestPort (find translate net fuel) (net.state port) hash = some answer) :
    find translate net (fuel + 1) port hash = some answer := by
  rw [find_succ translate live, found, retry, Option.bind_eq_bind, Option.bind_some,
    if_neg (by omega), Option.map_some, readPort_decimal valid.2]

/-- Attempts that end have answered something else than zero. -/
theorem retry_some {attempt : Option ℕ} {rounds result : ℕ}
    (ended : retry attempt rounds = some result) : attempt = some result ∧ result ≠ 0 := by
  induction rounds with
  | zero => cases ended
  | succ rounds ih =>
    obtain ⟨value, tried, next⟩ := Option.bind_eq_some_iff.mp ended
    split at next
    · exact ih next
    · obtain rfl := Option.some.inj next
      exact ⟨tried, ‹_›⟩

/-- What a live node answers to `find` was the answer of one of its attempts. -/
theorem lookup_of_find {net : Network} {port answer fuel : ℕ} {hash : UInt32}
    (live : port ∈ net.members) (found : find translate net (fuel + 1) port hash = some answer) :
    ∃ result, findClosestPort (find translate net fuel) (net.state port) hash = some result ∧
      result ≠ 0 ∧ answer = readPort (decimal result) := by
  rw [find_succ translate live] at found
  obtain ⟨result, ended, rfl⟩ := Option.map_eq_some_iff.mp found
  obtain ⟨same, positive⟩ := retry_some ended
  exact ⟨result, same, positive, rfl⟩

/-! ## Exchanges -/

/-- Send a message to a live node and read its reply. -/
def Network.deliver (closest : UInt32 → Option ℕ) (net : Network) (port : ℕ) (message : Message) :
    Option (Network × Bytes) := do
  let received ← Message.read message.text
  let (s, reply) ← chordNode translate closest (net.state port) received
  return (net.set port s, reply)

/-- No lookup is needed to answer the message. -/
def noLookup : UInt32 → Option ℕ := fun _ => none

/-- `resetPreNode`. -/
def resetPreNode (net : Network) (port : ℕ) : Option Network :=
  if port ∈ net.members then (net.deliver translate noLookup port .resetPre).map Prod.fst
  else some net

/-- Connect to the successor; when that fails, let its successor take over, reset the predecessor
there and connect once more. -/
def connectPostnode (net : Network) (p : ℕ) : Option (Network × Bool) :=
  if (net.state p).postnode.port ∈ net.members then some (net, true)
  else do
    let replaced := net.set p (takeOver translate (net.state p))
    let port := (replaced.state p).postnode.port
    let cleared ← resetPreNode translate replaced port
    return (cleared, decide (port ∈ net.members))

/-- `stabilize`. -/
def stabilize (net : Network) (p : ℕ) : Option Network := do
  let (reached, connected) ← connectPostnode translate net p
  if connected then
    let (asked, reply) ← reached.deliver translate noLookup (reached.state p).postnode.port
      (.stable (reached.state p).localNode.port)
    return asked.set p (stabilizeReply translate (asked.state p) reply)
  else return reached

/-- `notify`. -/
def notify (net : Network) (p : ℕ) : Option Network := do
  let (reached, connected) ← connectPostnode translate net p
  if connected then
    (reached.deliver translate noLookup (reached.state p).postnode.port
      (.notify (reached.state p).localNode.port)).map Prod.fst
  else return reached

/-- `heartBeat`. -/
def heartBeat (net : Network) (p : ℕ) : Option Network :=
  match (net.state p).prenode with
  | none => some net
  | some prenode =>
    if prenode.port ∈ net.members then
      (net.deliver translate noLookup prenode.port
        (.keepAlive (net.state p).postnode.port)).map Prod.fst
    else some (net.set p (dropPrenode (net.state p)))

/-- `fix_fingers`, with the port its lookup answered. -/
def fixFingers (net : Network) (p : ℕ) (i : Fin 32) (portNeeded : ℕ) : Network :=
  net.set p (fixFinger translate (net.state p) i portNeeded)

/-- `join`: a new node asks a live one, whose lookup answers a port, and comes alive. -/
def join (garbage : Node) (net : Network) (n m closest : ℕ) : Option Network := do
  let (asked, reply) ← net.deliver translate (fun _ => some closest) m (.join n)
  return asked.enroll n (joinReply translate (startNode translate garbage n) reply)

/-- The network of a first node. -/
def firstNetwork (garbage : Node) (port : ℕ) : Network where
  members := {port}
  state _ := creatFirstNode (startNode translate garbage port)

/-- A message that fits is handled as it was meant. -/
theorem Network.deliver_eq {closest : UInt32 → Option ℕ} {net : Network} {port : ℕ}
    {message : Message} (fits : message.Fits) {s : NodeState} {reply : Bytes}
    (handled : chordNode translate closest (net.state port) message = some (s, reply)) :
    net.deliver translate closest port message = some (net.set port s, reply) := by
  rw [deliver, Message.read_text fits, Option.bind_eq_bind, Option.bind_some, chordNode_received,
    handled]
  rfl

/-! ## What an exchange changes -/

variable {translate} {net : Network} {p : ℕ}

/-- `stabilize` with a successor that lives. -/
theorem stabilize_live (live : (net.state p).postnode.port ∈ net.members)
    (fits : (net.state p).localNode.port < 2 ^ 16) :
    stabilize translate net p = some (net.set p (stabilizeReply translate (net.state p)
      (stableReply (net.state (net.state p).postnode.port)))) := by
  have connected : connectPostnode translate net p = some (net, true) := if_pos live
  have plain : (Message.stable (net.state p).localNode.port).Fits := fits
  have handled : chordNode translate noLookup (net.state (net.state p).postnode.port)
      (.stable (net.state p).localNode.port) = some (net.state (net.state p).postnode.port,
        stableReply (net.state (net.state p).postnode.port)) := rfl
  have asked := Network.deliver_eq translate plain handled
  rw [Network.set_same] at asked
  simp only [stabilize, connected, Option.bind_eq_bind, Option.bind_some, if_true, asked]
  rfl

/-- `notify` with a successor that lives. -/
theorem notify_live (live : (net.state p).postnode.port ∈ net.members)
    (fits : (net.state p).localNode.port < 2 ^ 16) :
    notify translate net p = some (net.set (net.state p).postnode.port
      (handleNotify translate (net.state (net.state p).postnode.port)
        (net.state p).localNode.port)) := by
  have connected : connectPostnode translate net p = some (net, true) := if_pos live
  have plain : (Message.notify (net.state p).localNode.port).Fits := fits
  have handled : chordNode translate noLookup (net.state (net.state p).postnode.port)
      (.notify (net.state p).localNode.port) =
        some (handleNotify translate (net.state (net.state p).postnode.port)
          (net.state p).localNode.port, []) := rfl
  have asked := Network.deliver_eq translate plain handled
  simp only [notify, connected, Option.bind_eq_bind, Option.bind_some, if_true, asked,
    Option.map_some]

/-- `heartBeat` with a predecessor that lives. -/
theorem heartBeat_live {r : Node} (known : (net.state p).prenode = some r)
    (live : r.port ∈ net.members) (fits : (net.state p).postnode.port < 2 ^ 16) :
    heartBeat translate net p = some (net.set r.port { net.state r.port with
      postnode2 := nodeAt translate (net.state p).postnode.port }) := by
  have plain : (Message.keepAlive (net.state p).postnode.port).Fits := fits
  have handled : chordNode translate noLookup (net.state r.port)
      (.keepAlive (net.state p).postnode.port) = some ({ net.state r.port with
        postnode2 := nodeAt translate (net.state p).postnode.port }, []) := rfl
  have asked := Network.deliver_eq translate plain handled
  simp only [heartBeat, known, if_pos live, asked, Option.map_some]

/-- `heartBeat` with a predecessor that has crashed. -/
theorem heartBeat_dead {r : Node} (known : (net.state p).prenode = some r)
    (dead : r.port ∉ net.members) :
    heartBeat translate net p = some (net.set p (dropPrenode (net.state p))) := by
  simp only [heartBeat, known, if_neg dead]

/-- A live node forgets its predecessor. -/
theorem resetPreNode_eq (translate : ℕ → UInt32) (net : Network) (port : ℕ) :
    resetPreNode translate net port = some
      (if port ∈ net.members then net.set port (dropPrenode (net.state port)) else net) := by
  unfold resetPreNode
  by_cases live : port ∈ net.members
  · have handled : chordNode translate noLookup (net.state port) .resetPre =
        some (dropPrenode (net.state port), []) := rfl
    have fits : Message.resetPre.Fits := trivial
    rw [if_pos live, if_pos live, Network.deliver_eq translate fits handled]
    rfl
  · rw [if_neg live, if_neg live]

/-- When the successor has crashed, the second successor takes over and is reset. -/
theorem connectPostnode_dead (dead : (net.state p).postnode.port ∉ net.members) :
    connectPostnode translate net p =
      (resetPreNode translate (net.set p (takeOver translate (net.state p)))
        (net.state p).postnode2.port).map fun cleared =>
          (cleared, decide ((net.state p).postnode2.port ∈ net.members)) := by
  have taken : ((net.set p (takeOver translate (net.state p))).state p).postnode.port =
      (net.state p).postnode2.port := by
    rw [Network.set_state_self]
    rfl
  unfold connectPostnode
  rw [if_neg dead]
  dsimp only
  rw [taken, resetPreNode_eq]
  rfl

/-- The second successor has taken over and has forgotten its predecessor. -/
def Network.failover (translate : ℕ → UInt32) (net : Network) (p : ℕ) : Network :=
  let taken := net.set p (takeOver translate (net.state p))
  taken.set (net.state p).postnode2.port (dropPrenode (taken.state (net.state p).postnode2.port))

/-- After a failover the successor is the former second one. -/
theorem Network.failover_postnode (translate : ℕ → UInt32) (net : Network) (p : ℕ) :
    ((net.failover translate p).state p).postnode =
      nodeAt translate (net.state p).postnode2.port := by
  unfold failover
  dsimp only
  by_cases here : p = (net.state p).postnode2.port
  · rw [← here, set_state_self, set_state_self]
    exact congrArg (nodeAt translate) here.symm
  · rw [set_state_of_ne _ here, set_state_self]
    rfl

/-- A crashed successor is replaced before the exchange when the second one lives. -/
theorem connectPostnode_failover (dead : (net.state p).postnode.port ∉ net.members)
    (next : (net.state p).postnode2.port ∈ net.members) :
    connectPostnode translate net p = connectPostnode translate (net.failover translate p) p := by
  have reached : ((net.failover translate p).state p).postnode.port ∈
      (net.failover translate p).members := by
    rw [net.failover_postnode translate p]
    exact next
  have again : connectPostnode translate (net.failover translate p) p =
      some (net.failover translate p, true) := if_pos reached
  rw [again, connectPostnode_dead dead, resetPreNode_eq]
  have here : (net.state p).postnode2.port ∈
      (net.set p (takeOver translate (net.state p))).members := next
  rw [if_pos here, Option.map_some, decide_eq_true next]
  rfl

/-- `stabilize` goes on from the failover. -/
theorem stabilize_failover (dead : (net.state p).postnode.port ∉ net.members)
    (next : (net.state p).postnode2.port ∈ net.members) :
    stabilize translate net p = stabilize translate (net.failover translate p) p := by
  unfold stabilize
  rw [connectPostnode_failover dead next]

/-- `notify` goes on from the failover. -/
theorem notify_failover (dead : (net.state p).postnode.port ∉ net.members)
    (next : (net.state p).postnode2.port ∈ net.members) :
    notify translate net p = notify translate (net.failover translate p) p := by
  unfold notify
  rw [connectPostnode_failover dead next]

end

end TinyTools.Chord
