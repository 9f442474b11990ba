import TinyTools.Chord.Predecessor

/-!
# Ports and keys of the node records

A record holds a port, which connections use, and a key, which the routing compares. Every place
that sets the port of a record sets its key along with it, so records stay paired through whatever
happens to a node. A join that fails leaves the record of the successor as it was allocated, and
the process goes on to serve with it.
-/

namespace TinyTools.Chord

open TinyTools.Lib

variable (translate : ℕ → UInt32)

/-! ## Runs of a process -/

/-- `join`, which returns early when it creates no socket, does not connect, does not send or does
not read a reply. -/
def NodeState.join (s : NodeState) (created connected sent : Bool) (reply : Option Bytes) :
    NodeState :=
  if created = false then s
  else if connected = false then s
  else if sent = false then s
  else match reply with
    | none => s
    | some reply => joinReply translate s reply

/-- What a process does before it serves. -/
inductive Begin
  /-- It is the first node. -/
  | first
  /-- It joins. -/
  | join (created connected sent : Bool) (reply : Option Bytes)

/-- The globals when the service threads start, with what the record of the successor was allocated
with. -/
def Begin.state (garbage : Node) (port : ℕ) : Begin → NodeState
  | .first => creatFirstNode (startNode translate garbage port)
  | .join created connected sent reply =>
    (startNode translate garbage port).join translate created connected sent reply

/-- A process joins and something on the way fails. -/
def Begin.Fails : Begin → Prop
  | .first => False
  | .join created connected sent reply =>
    created = false ∨ connected = false ∨ sent = false ∨ reply = none

/-- What happens to a process while it serves. -/
inductive Activity
  /-- A message arrives, or an exchange of `stabilize`, `notify` or `heartBeat` ends. -/
  | event (happened : Event)
  /-- `fix_fingers` refills a row with the port it found. -/
  | fixFinger (i : Fin 32) (portNeeded : ℕ)

/-- The globals afterwards, and nothing when a null predecessor is dereferenced. -/
def Activity.next (s : NodeState) : Activity → Option NodeState
  | .event happened => happened.next translate s
  | .fixFinger i portNeeded => some (Chord.fixFinger translate s i portNeeded)

/-- One activity after another. -/
def runActivities (s : NodeState) (activities : List Activity) : Option NodeState :=
  activities.foldlM (Activity.next translate) s

/-! ## Paired records -/

/-- A record with the key of its port. -/
def Node.Paired (node : Node) : Prop := node.key = translate node.port

/-- All records of a node are paired. -/
structure NodeState.Records (s : NodeState) : Prop where
  /-- The successor. -/
  postnode : s.postnode.Paired translate
  /-- The successor of the successor. -/
  postnode2 : s.postnode2.Paired translate
  /-- The rows of the finger table. -/
  finger : ∀ i, (s.finTb i).nodeInfo.Paired translate
  /-- The predecessor, when one is known. -/
  prenode : ∀ r, s.prenode = some r → r.Paired translate

/-- In every state of a run the records hold ports that do not depend on the memory they were
allocated in, each with its key. -/
structure RecordsHold (begin_ : Begin) (port : ℕ) (activities : List Activity) : Prop where
  /-- Whatever the memory held, the process is in the same state. -/
  defined : ∀ before, before <+: activities → ∀ garbage garbage' : Node,
    runActivities translate (begin_.state translate garbage port) before =
      runActivities translate (begin_.state translate garbage' port) before
  /-- All records are paired. -/
  paired : ∀ before, before <+: activities → ∀ (garbage : Node) (s : NodeState),
    runActivities translate (begin_.state translate garbage port) before = some s →
      s.Records translate

variable {translate} {s s' : NodeState}

/-- A record made for a port is paired. -/
theorem nodeAt_paired (port : ℕ) : (nodeAt translate port).Paired translate := rfl

/-- A new successor is paired. -/
theorem NodeState.Records.setPostnode (records : s.Records translate) (port : ℕ) :
    { s with postnode := nodeAt translate port }.Records translate :=
  ⟨nodeAt_paired port, records.postnode2, records.finger, records.prenode⟩

/-- A new successor of the successor is paired. -/
theorem NodeState.Records.setPostnode2 (records : s.Records translate) (port : ℕ) :
    { s with postnode2 := nodeAt translate port }.Records translate :=
  ⟨records.postnode, nodeAt_paired port, records.finger, records.prenode⟩

/-- A new predecessor is paired. -/
theorem NodeState.Records.setPrenode (records : s.Records translate) (port : ℕ) :
    { s with prenode := some (nodeAt translate port) }.Records translate := by
  refine ⟨records.postnode, records.postnode2, records.finger, fun r known => ?_⟩
  rw [← Option.some.inj known]
  exact nodeAt_paired port

/-- Without a predecessor there is none to pair. -/
theorem NodeState.Records.dropPrenode (records : s.Records translate) :
    (Chord.dropPrenode s).Records translate :=
  ⟨records.postnode, records.postnode2, records.finger, fun _ known => by cases known⟩

/-! ## Steps -/

/-- A failover keeps the records paired. -/
theorem NodeState.Records.takeOver (records : s.Records translate) :
    (Chord.takeOver translate s).Records translate :=
  (records.setPostnode s.postnode2.port).setPostnode2 s.localNode.port

/-- The reply to `stabilize` keeps the records paired. -/
theorem NodeState.Records.stabilizeReply (records : s.Records translate) (reply : Bytes) :
    (Chord.stabilizeReply translate s reply).Records translate := by
  unfold Chord.stabilizeReply
  dsimp only
  split_ifs
  · exact records.setPostnode (readPort reply)
  · exact records.setPostnode (readPort reply)
  · exact records
  · exact records

/-- The `join` branch keeps the records paired. -/
theorem NodeState.Records.handleJoin {closest : UInt32 → Option ℕ} {port : ℕ} {reply : Bytes}
    (records : s.Records translate)
    (handled : Chord.handleJoin translate closest s port = some (s', reply)) :
    s'.Records translate := by
  unfold Chord.handleJoin at handled
  split_ifs at handled
  · obtain ⟨known, -, same⟩ := Option.bind_eq_some_iff.mp handled
    cases same
    exact (records.setPostnode port).setPrenode port
  · obtain ⟨result, -, same⟩ := Option.bind_eq_some_iff.mp handled
    cases same
    exact records

/-- The `notify` branch keeps the records paired. -/
theorem NodeState.Records.handleNotify (records : s.Records translate) (result : ℕ) :
    (Chord.handleNotify translate s result).Records translate := by
  unfold Chord.handleNotify
  split
  · exact records.setPrenode result
  · split_ifs
    · exact records.setPrenode result
    · exact records.setPrenode result
    · exact records

/-- Every message handler keeps the records paired. -/
theorem NodeState.Records.chordNode {closest : UInt32 → Option ℕ} {message : Message}
    {reply : Bytes} (records : s.Records translate)
    (handled : Chord.chordNode translate closest s message = some (s', reply)) :
    s'.Records translate := by
  cases message with
  | join port => exact records.handleJoin handled
  | find hash =>
    obtain ⟨result, -, same⟩ := Option.map_eq_some_iff.mp handled
    cases same
    exact records
  | stable port =>
    cases handled
    exact records
  | notify port =>
    cases handled
    exact records.handleNotify port
  | keepAlive port =>
    cases handled
    exact records.setPostnode2 port
  | resetPre =>
    cases handled
    exact records.dropPrenode

/-- A refilled row is paired, and the other rows stay. -/
theorem NodeState.Records.fixFinger (records : s.Records translate) (i : Fin 32)
    (portNeeded : ℕ) : (Chord.fixFinger translate s i portNeeded).Records translate := by
  refine ⟨records.postnode, records.postnode2, fun j => ?_, records.prenode⟩
  simp only [Chord.fixFinger]
  by_cases same : j = i
  · rw [same, Function.update_self]
    exact nodeAt_paired portNeeded
  · rw [Function.update_of_ne same]
    exact records.finger j

/-- Whatever happens keeps the records paired. -/
theorem Activity.next_records {activity : Activity} (records : s.Records translate)
    (ran : activity.next translate s = some s') : s'.Records translate := by
  cases activity with
  | fixFinger i portNeeded =>
    cases ran
    exact records.fixFinger i portNeeded
  | event happened =>
    cases happened with
    | takeOver =>
      cases ran
      exact records.takeOver
    | replied reply =>
      cases ran
      exact records.stabilizeReply reply
    | unreachable =>
      cases ran
      exact records.dropPrenode
    | query =>
      cases ran
      exact records
    | receive message answer =>
      obtain ⟨⟨after, reply⟩, handled, rfl⟩ := Option.map_eq_some_iff.mp ran
      exact records.chordNode handled

/-! ## Runs -/

/-- Whatever happens to a node with paired records, they stay paired. -/
theorem runActivities_records {activities : List Activity} (records : s.Records translate)
    (ran : runActivities translate s activities = some s') : s'.Records translate := by
  induction activities generalizing s with
  | nil =>
    cases ran
    exact records
  | cons activity rest ih =>
    obtain ⟨next, first, later⟩ := Option.bind_eq_some_iff.mp ran
    exact ih (activity.next_records records first) later

/-- A joining process whose reply arrives does not depend on the memory it was given. -/
theorem NodeState.join_replied (garbage : Node) (port : ℕ) (reply : Bytes) :
    (startNode translate garbage port).join translate true true true (some reply) =
      joinReply translate (startNode translate (nodeAt translate port) port) reply := rfl

/-- A process that starts well is in the same state whatever memory it was given, with its records
paired. -/
theorem Begin.state_well {begin_ : Begin} (well : ¬ begin_.Fails) (port : ℕ) :
    ∃ s : NodeState, s.Records translate ∧
      ∀ garbage, begin_.state translate garbage port = s := by
  have started : (startNode translate (nodeAt translate port) port).Records translate :=
    ⟨nodeAt_paired port, nodeAt_paired port, fun _ => nodeAt_paired port,
      fun _ known => by cases known⟩
  cases begin_ with
  | first =>
    exact ⟨creatFirstNode (startNode translate (nodeAt translate port) port),
      (started.setPostnode port).setPrenode port, fun _ => rfl⟩
  | join created connected sent reply =>
    simp only [Begin.Fails, not_or, Bool.not_eq_false] at well
    obtain ⟨rfl, rfl, rfl, known⟩ := well
    obtain ⟨text, rfl⟩ := Option.ne_none_iff_exists'.mp known
    exact ⟨joinReply translate (startNode translate (nodeAt translate port) port) text,
      started.setPostnode (readPort text), fun garbage => NodeState.join_replied garbage port text⟩

/-- A process whose join fails keeps the record of its successor as it was allocated. -/
theorem Begin.state_fails {begin_ : Begin} (fails : begin_.Fails) (garbage : Node) (port : ℕ) :
    begin_.state translate garbage port = startNode translate garbage port := by
  cases begin_ with
  | first => exact fails.elim
  | join created connected sent reply =>
    simp only [Begin.Fails] at fails
    simp only [Begin.state, NodeState.join]
    split_ifs with noSocket notConnected notSent
    · rfl
    · rfl
    · rfl
    · have unread : reply = none := by simpa [noSocket, notConnected, notSent] using fails
      rw [unread]

/-- However a process begins and whatever happens to it, its records hold defined ports with their
keys in every state exactly when it is the first node or its join goes through. -/
theorem recordsHold_iff (translate : ℕ → UInt32) (begin_ : Begin) (port : ℕ)
    (activities : List Activity) :
    RecordsHold translate begin_ port activities ↔ ¬ begin_.Fails := by
  constructor
  · intro hold fails
    let garbage : Node := ⟨port, translate port + 1⟩
    have start := hold.paired [] List.nil_prefix garbage _ rfl
    rw [begin_.state_fails fails] at start
    have key : translate port + 1 = translate port := start.postnode
    simp at key
  · intro well
    have started : ∃ s : NodeState, s.Records translate ∧
        ∀ garbage, begin_.state translate garbage port = s := begin_.state_well well port
    obtain ⟨s, records, same⟩ := started
    constructor
    · intro before _ garbage garbage'
      rw [same, same]
    · intro before _ garbage reached ran
      rw [same] at ran
      exact runActivities_records records ran

/-- A node whose connection is refused serves with an allocated record. -/
theorem not_recordsHold_refused : ¬ RecordsHold keyOf (.join true false false none) 4000 [] := by
  intro hold
  have start := hold.paired [] List.nil_prefix ⟨4000, keyOf 4000 + 1⟩ _ rfl
  have key : keyOf 4000 + 1 = keyOf 4000 := start.postnode
  simp at key

end TinyTools.Chord
