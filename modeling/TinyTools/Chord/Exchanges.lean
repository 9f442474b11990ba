import TinyTools.Chord.Routing

/-!
# Exchanges among nodes that may have crashed

Whatever nodes have crashed, the records of the live ones are those of ports of the machine, and
each of the exchanges of maintenance ends: what a failed connection leads to is decided by the nodes
that live.
-/

namespace TinyTools.Chord

open TinyTools.Lib

variable (translate : ℕ → UInt32)

/-- The record of one of the machine's ports. -/
def IsRecord (r : Node) : Prop := ∃ q, IsPort q ∧ r = nodeAt translate q

/-- The globals of a node are the records of ports. -/
structure NodeState.Sane (p : ℕ) (s : NodeState) : Prop where
  /-- The node itself. -/
  self : s.localNode = nodeAt translate p
  /-- The successor. -/
  postnode : IsRecord translate s.postnode
  /-- The successor of the successor. -/
  postnode2 : IsRecord translate s.postnode2
  /-- The predecessor, when one is known. -/
  prenode : ∀ r, s.prenode = some r → IsRecord translate r
  /-- The fingers. -/
  finger : ∀ i, IsRecord translate (s.finTb i).nodeInfo

/-- The records of all live nodes are sane. -/
structure Network.Sane (net : Network) : Prop where
  /-- Live nodes listen on ports. -/
  ports : ∀ p ∈ net.members, IsPort p
  /-- Their records are those of ports. -/
  nodes : ∀ p ∈ net.members, (net.state p).Sane translate p

variable {translate} {net : Network} {p q : ℕ} {s : NodeState}

/-- What is made for a port is a record. -/
theorem isRecord_nodeAt (port : IsPort q) : IsRecord translate (nodeAt translate q) :=
  ⟨q, port, rfl⟩

/-- A record of a port has that port. -/
theorem IsRecord.isPort {r : Node} (named : IsRecord translate r) : IsPort r.port := by
  obtain ⟨q, port, rfl⟩ := named
  exact port

/-- A record is the one of its port. -/
theorem IsRecord.eq_nodeAt {r : Node} (named : IsRecord translate r) :
    r = nodeAt translate r.port := by
  obtain ⟨q, port, rfl⟩ := named
  rfl

/-- Replacing a live node by a sane one. -/
theorem Network.Sane.set (sane : net.Sane translate) (own : s.Sane translate p) :
    (net.set p s).Sane translate where
  ports := sane.ports
  nodes q live := by
    by_cases here : q = p
    · rw [here, set_state_self]
      exact own
    · rw [set_state_of_ne net here]
      exact sane.nodes q live

/-- Live nodes know themselves and their successors by ports. -/
theorem Network.Sane.hasPorts (sane : net.Sane translate) : HasPorts net := by
  intro p live
  have own := sane.nodes p live
  constructor
  · rw [own.self]
    exact sane.ports p live
  · exact own.postnode.isPort

/-- Fingers that name live nodes have their keys. -/
theorem Network.Sane.knownKeys (sane : net.Sane translate) : KnownKeys net := by
  intro p live i member
  have named := ((sane.nodes p live).finger i).eq_nodeAt
  have self := (sane.nodes _ member).self
  rw [Network.position, Network.node, self, named]
  rfl

/-! ## Local changes -/

/-- A successor that takes over is a record. -/
theorem NodeState.Sane.takeOver (own : s.Sane translate p) (port : IsPort p) :
    (takeOver translate s).Sane translate p := by
  refine ⟨own.self, isRecord_nodeAt own.postnode2.isPort, isRecord_nodeAt ?_, own.prenode,
    own.finger⟩
  rw [own.self]
  exact port

/-- A node without a predecessor. -/
theorem NodeState.Sane.dropPrenode (own : s.Sane translate p) :
    (dropPrenode s).Sane translate p where
  self := own.self
  postnode := own.postnode
  postnode2 := own.postnode2
  prenode r holds := by cases holds
  finger := own.finger

/-- A port taken from a reply becomes a record. -/
theorem NodeState.Sane.stabilizeReply (own : s.Sane translate p) {reply : Bytes}
    (short : readPort reply < 2 ^ 16) : (stabilizeReply translate s reply).Sane translate p := by
  unfold Chord.stabilizeReply
  dsimp only
  split_ifs with positive direct wrapped
  · exact ⟨own.self, isRecord_nodeAt ⟨positive, short⟩, own.postnode2, own.prenode, own.finger⟩
  · exact ⟨own.self, isRecord_nodeAt ⟨positive, short⟩, own.postnode2, own.prenode, own.finger⟩
  · exact own
  · exact own

/-- A row is refilled with a record. -/
theorem NodeState.Sane.fixFinger (own : s.Sane translate p) (i : Fin 32) (port : IsPort q) :
    (fixFinger translate s i q).Sane translate p := by
  refine ⟨own.self, own.postnode, own.postnode2, own.prenode, fun j => ?_⟩
  by_cases here : j = i
  · simp only [Chord.fixFinger, here, Function.update_self]
    exact isRecord_nodeAt port
  · simp only [Chord.fixFinger, Function.update_of_ne here]
    exact own.finger j

/-! ## Messages that need no lookup -/

/-- A message of maintenance about one of the machine's ports. -/
def Message.Plain : Message → Prop
  | .join _ | .find _ => False
  | .stable port | .notify port | .keepAlive port => IsPort port
  | .resetPre => True

/-- A message of maintenance is answered at once, and leaves the successor and the fingers as they
are. -/
theorem chordNode_plain {message : Message} (plain : message.Plain) (own : s.Sane translate p) :
    ∃ s' reply, chordNode translate noLookup s message = some (s', reply) ∧
      s'.Sane translate p ∧ s'.postnode = s.postnode ∧ s'.finTb = s.finTb ∧
        readPort reply < 2 ^ 16 := by
  have zero : readPort [] < 2 ^ 16 := by decide
  cases message with
  | join port => exact plain.elim
  | find hash => exact plain.elim
  | stable port =>
    refine ⟨s, stableReply s, rfl, own, rfl, rfl, ?_⟩
    unfold stableReply
    cases known : s.prenode with
    | none => decide
    | some r =>
      have port := (own.prenode r known).isPort
      dsimp only
      rw [readPort_decimal port.2]
      exact port.2
  | notify port =>
    refine ⟨handleNotify translate s port, [], rfl, ?_, ?_⟩
    · have told : ∀ r, some (nodeAt translate port) = some r → IsRecord translate r := by
        intro r same
        rw [← Option.some.inj same]
        exact isRecord_nodeAt plain
      unfold handleNotify
      cases known : s.prenode with
      | none => exact ⟨own.self, own.postnode, own.postnode2, told, own.finger⟩
      | some r =>
        dsimp only
        split_ifs
        · exact ⟨own.self, own.postnode, own.postnode2, told, own.finger⟩
        · exact ⟨own.self, own.postnode, own.postnode2, told, own.finger⟩
        · exact own
    · unfold handleNotify
      cases s.prenode with
      | none => exact ⟨rfl, rfl, zero⟩
      | some r =>
        dsimp only
        split_ifs <;> exact ⟨rfl, rfl, zero⟩
  | keepAlive port =>
    have told : IsRecord translate (nodeAt translate port) := isRecord_nodeAt plain
    exact ⟨_, [], rfl, ⟨own.self, own.postnode, told, own.prenode, own.finger⟩, rfl, rfl, zero⟩
  | resetPre => exact ⟨_, [], rfl, own.dropPrenode, rfl, rfl, zero⟩

/-- A message of maintenance fits. -/
theorem Message.Plain.fits {message : Message} (plain : message.Plain) : message.Fits := by
  cases message with
  | join port => exact plain.elim
  | find hash => exact plain.elim
  | stable port => exact plain.2
  | notify port => exact plain.2
  | keepAlive port => exact plain.2
  | resetPre => trivial

/-- A message of maintenance is delivered to a live node. -/
theorem Network.Sane.deliver (sane : net.Sane translate) (live : q ∈ net.members)
    {message : Message} (plain : message.Plain) :
    ∃ s' reply, net.deliver translate noLookup q message = some (net.set q s', reply) ∧
      (net.set q s').Sane translate ∧ readPort reply < 2 ^ 16 := by
  obtain ⟨s', reply, handled, own, -, -, short⟩ := chordNode_plain plain (sane.nodes q live)
  exact ⟨s', reply, Network.deliver_eq translate plain.fits handled, sane.set own, short⟩

/-! ## The exchanges of maintenance -/

/-- Connecting to the successor, or to the one that takes over, ends. -/
theorem Network.Sane.connectPostnode (sane : net.Sane translate) (live : p ∈ net.members) :
    ∃ net' connected, connectPostnode translate net p = some (net', connected) ∧
      net'.Sane translate ∧ net'.members = net.members ∧
        (connected = true → (net'.state p).postnode.port ∈ net.members) := by
  by_cases reached : (net.state p).postnode.port ∈ net.members
  · exact ⟨net, true, if_pos reached, sane, rfl, fun _ => reached⟩
  have replaced := sane.set ((sane.nodes p live).takeOver (sane.ports p live))
  rw [connectPostnode_dead reached, resetPreNode_eq]
  refine ⟨_, _, rfl, ?_, ?_, fun connected => ?_⟩
  · split_ifs with next
    · exact replaced.set (replaced.nodes _ next).dropPrenode
    · exact replaced
  · split_ifs <;> rfl
  · have next := of_decide_eq_true connected
    rw [if_pos (show _ ∈ (net.set p _).members from next)]
    have successor : ((net.failover translate p).state p).postnode.port ∈ net.members := by
      rw [net.failover_postnode]
      exact next
    exact successor

/-- `stabilize` ends. -/
theorem Network.Sane.stabilize (sane : net.Sane translate) (live : p ∈ net.members) :
    ∃ net', stabilize translate net p = some net' ∧ net'.Sane translate ∧
      net'.members = net.members := by
  obtain ⟨reached, connected, ran, sane', same, next⟩ := sane.connectPostnode live
  unfold Chord.stabilize
  rw [ran]
  cases connected with
  | false => exact ⟨reached, rfl, sane', same⟩
  | true =>
    have here : p ∈ reached.members := same ▸ live
    have plain : (Message.stable (reached.state p).localNode.port).Plain := by
      rw [(sane'.nodes p here).self]
      exact sane'.ports p here
    obtain ⟨s', reply, asked, sane'', short⟩ := sane'.deliver (same ▸ next rfl) plain
    simp only [Option.bind_eq_bind, Option.bind_some, if_true, asked]
    exact ⟨_, rfl, sane''.set ((sane''.nodes p here).stabilizeReply short), same⟩

/-- `notify` ends. -/
theorem Network.Sane.notify (sane : net.Sane translate) (live : p ∈ net.members) :
    ∃ net', notify translate net p = some net' ∧ net'.Sane translate ∧
      net'.members = net.members := by
  obtain ⟨reached, connected, ran, sane', same, next⟩ := sane.connectPostnode live
  unfold Chord.notify
  rw [ran]
  cases connected with
  | false => exact ⟨reached, rfl, sane', same⟩
  | true =>
    have here : p ∈ reached.members := same ▸ live
    have plain : (Message.notify (reached.state p).localNode.port).Plain := by
      rw [(sane'.nodes p here).self]
      exact sane'.ports p here
    obtain ⟨s', reply, asked, sane'', -⟩ := sane'.deliver (same ▸ next rfl) plain
    simp only [Option.bind_eq_bind, Option.bind_some, if_true, asked, Option.map_some]
    exact ⟨_, rfl, sane'', same⟩

/-- `heartBeat` ends. -/
theorem Network.Sane.heartBeat (sane : net.Sane translate) (live : p ∈ net.members) :
    ∃ net', heartBeat translate net p = some net' ∧ net'.Sane translate ∧
      net'.members = net.members := by
  have own := sane.nodes p live
  unfold Chord.heartBeat
  cases known : (net.state p).prenode with
  | none => exact ⟨net, rfl, sane, rfl⟩
  | some r =>
    dsimp only
    by_cases reached : r.port ∈ net.members
    · have plain : (Message.keepAlive (net.state p).postnode.port).Plain := own.postnode.isPort
      obtain ⟨s', reply, asked, sane', -⟩ := sane.deliver reached plain
      rw [if_pos reached, asked]
      exact ⟨_, rfl, sane', rfl⟩
    · rw [if_neg reached]
      exact ⟨_, rfl, sane.set own.dropPrenode, rfl⟩

end TinyTools.Chord
