import TinyTools.Chord.Repair

/-!
# The predecessor a node may not know

What happens to one node is a sequence of events: its own exchanges succeed or fail, and messages
arrive from anyone. A `join` message makes a node that is its own successor write through its
predecessor pointer, so the pointer must be set while the node is its own successor. Most events
keep it so; a failover to the node itself, a failed heartbeat and a `reset-pre` message need not.
-/

namespace TinyTools.Chord

open TinyTools.Lib

variable (translate : ℕ → UInt32)

/-! ## The run of a node -/

/-- What can happen to a node, as far as its globals are concerned. -/
inductive Event
  /-- The successor cannot be reached by `stabilize` or `notify`. -/
  | takeOver
  /-- The successor answers `stabilize`. -/
  | replied (reply : Bytes)
  /-- The predecessor cannot be reached by `heartBeat`. -/
  | unreachable
  /-- A message arrives; a lookup that it needs answers a port. -/
  | receive (message : Message) (answer : ℕ)
  /-- A query arrives. -/
  | query

/-- The globals after an event, and nothing when a null predecessor is dereferenced. -/
def Event.next (s : NodeState) : Event → Option NodeState
  | .takeOver => some (Chord.takeOver translate s)
  | .replied reply => some (stabilizeReply translate s reply)
  | .unreachable => some (dropPrenode s)
  | .receive message answer =>
    (chordNode translate (fun _ => some answer) s message).map Prod.fst
  | .query => some s

/-- One event after another. -/
def runEvents (s : NodeState) (events : List Event) : Option NodeState :=
  events.foldlM (Event.next translate) s

/-- How a process starts. -/
inductive Start
  /-- `creatFirstNode`. -/
  | first (garbage : Node) (port : ℕ)
  /-- `join`, which is answered. -/
  | joined (garbage : Node) (port : ℕ) (reply : Bytes)
  /-- `join`, whose connection fails. -/
  | refused (garbage : Node) (port : ℕ)

/-- The globals when the process begins to listen. -/
def Start.state : Start → NodeState
  | .first garbage port => creatFirstNode (startNode translate garbage port)
  | .joined garbage port reply => joinReply translate (startNode translate garbage port) reply
  | .refused garbage port => startNode translate garbage port

/-- At no point of a run does what happens next dereference a null predecessor. -/
def NeverNull (s : NodeState) (events : List Event) : Prop :=
  ∀ before, before <+: events → ∀ event, (runEvents translate s (before ++ [event])).isSome

/-! ## What keeps the predecessor known -/

/-- A process does not start as its own successor, unless it is the first one. -/
def Start.Careful : Start → Prop
  | .first _ _ => True
  | .joined _ port reply => readPort reply ≠ port
  | .refused garbage port => garbage.port ≠ port

/-- A node that is its own successor does not lose its predecessor, and becomes its own successor
only when it knows a predecessor. -/
def Event.Careful (s : NodeState) : Event → Prop
  | .takeOver => s.postnode2.port = s.localNode.port → s.prenode ≠ none
  | .unreachable | .receive .resetPre _ => s.postnode.port ≠ s.localNode.port
  | _ => True

/-- Every event of a run is careful in the state it meets. -/
def CarefulRun (s : NodeState) : List Event → Prop
  | [] => True
  | event :: rest => event.Careful s ∧ ∀ s', event.next translate s = some s' → CarefulRun s' rest

/-- A node that is its own successor knows a predecessor. -/
def NodeState.Guarded (s : NodeState) : Prop :=
  s.postnode.port = s.localNode.port → s.prenode ≠ none

variable {translate} {s s' : NodeState}

/-! ## One event -/

/-- An event leaves the node itself as it is. -/
theorem Event.next_localNode {event : Event} (ran : event.next translate s = some s') :
    s'.localNode = s.localNode := by
  cases event with
  | takeOver =>
    rw [← Option.some.inj ran]
    rfl
  | replied reply =>
    rw [← Option.some.inj ran]
    unfold stabilizeReply
    dsimp only
    split_ifs <;> rfl
  | unreachable =>
    rw [← Option.some.inj ran]
    rfl
  | query => rw [← Option.some.inj ran]
  | receive message answer =>
    obtain ⟨⟨after, reply⟩, handled, rfl⟩ := Option.map_eq_some_iff.mp ran
    cases message with
    | join port =>
      simp only [chordNode, handleJoin] at handled
      split_ifs at handled
      · obtain ⟨known, -, same⟩ := Option.bind_eq_some_iff.mp handled
        cases same
        rfl
      · cases handled
        rfl
    | notify port =>
      cases handled
      unfold handleNotify
      split
      · rfl
      · split_ifs <;> rfl
    | find hash | stable port | keepAlive port | resetPre =>
      cases handled
      rfl

/-- A node is in no danger exactly when whatever happens next goes well. -/
theorem NodeState.guarded_iff (translate : ℕ → UInt32) (s : NodeState) :
    s.Guarded ↔ ∀ event : Event, (event.next translate s).isSome := by
  constructor
  · intro guarded event
    cases event with
    | receive message answer =>
      cases message with
      | join port =>
        simp only [Event.next, chordNode, handleJoin]
        split_ifs with alone
        · obtain ⟨r, known⟩ := Option.ne_none_iff_exists'.mp (guarded alone)
          rw [known]
          rfl
        · rfl
      | find hash | stable port | notify port | keepAlive port | resetPre => rfl
    | takeOver | replied reply | unreachable | query => rfl
  · intro safe alone none
    have joined := safe (.receive (.join 0) 0)
    simp only [Event.next, chordNode, handleJoin, if_pos alone, none] at joined
    cases joined

/-- A node that knows a predecessor is in no danger. -/
theorem NodeState.Guarded.of_known {r : Node} (known : s.prenode = some r) : s.Guarded := by
  intro _ none
  rw [known] at none
  cases none

/-- A reply to `stabilize` does not make a node its own successor. -/
theorem NodeState.Guarded.replied (guarded : s.Guarded)
    (self : s.localNode.key = translate s.localNode.port) (reply : Bytes) :
    (stabilizeReply translate s reply).Guarded := by
  unfold stabilizeReply
  dsimp only
  split_ifs with positive direct wrapped
  · intro alone
    have same : readPort reply = s.localNode.port := alone
    rw [same, ← self] at direct
    exact absurd direct.2.1 (UInt32.lt_irrefl _)
  · intro alone
    exact absurd alone wrapped.2.1
  · exact guarded
  · exact guarded

/-- Without a predecessor the guard asks for another successor. -/
theorem NodeState.guarded_dropPrenode :
    (dropPrenode s).Guarded ↔ s.postnode.port ≠ s.localNode.port := by
  constructor
  · exact fun guarded alone => guarded alone rfl
  · exact fun apart alone => absurd alone apart

/-- An event that ends in a state keeps the guard when that state has it. -/
theorem guarded_next : (∃ s', some s = some s' ∧ s'.Guarded) ↔ s.Guarded := by
  simp

/-- From a guarded state, exactly the careful events keep the guard. -/
theorem Event.careful_iff (event : Event) (guarded : s.Guarded)
    (self : s.localNode.key = translate s.localNode.port) :
    event.Careful s ↔ ∃ s', event.next translate s = some s' ∧ s'.Guarded := by
  cases event with
  | takeOver => exact (guarded_next (s := Chord.takeOver translate s)).symm
  | replied reply => exact ⟨fun _ => ⟨_, rfl, guarded.replied self reply⟩, fun _ => trivial⟩
  | unreachable => exact NodeState.guarded_dropPrenode.symm.trans guarded_next.symm
  | query => exact ⟨fun _ => ⟨_, rfl, guarded⟩, fun _ => trivial⟩
  | receive message answer =>
    cases message with
    | join port =>
      refine ⟨fun _ => ?_, fun _ => trivial⟩
      simp only [Event.next, chordNode, handleJoin]
      split_ifs with alone
      · obtain ⟨r, known⟩ := Option.ne_none_iff_exists'.mp (guarded alone)
        rw [known]
        exact ⟨_, rfl, .of_known rfl⟩
      · exact ⟨_, rfl, guarded⟩
    | notify port =>
      refine ⟨fun _ => ⟨_, rfl, ?_⟩, fun _ => trivial⟩
      unfold handleNotify
      split
      · exact .of_known rfl
      · split_ifs
        · exact .of_known rfl
        · exact .of_known rfl
        · exact guarded
    | find hash | stable port => exact ⟨fun _ => ⟨_, rfl, guarded⟩, fun _ => trivial⟩
    | keepAlive port => exact ⟨fun _ => ⟨_, rfl, guarded⟩, fun _ => trivial⟩
    | resetPre => exact NodeState.guarded_dropPrenode.symm.trans guarded_next.symm

/-! ## Runs -/

/-- A run is in no danger when its first state is not and, after one event, the rest is not. -/
theorem neverNull_cons {event : Event} {rest : List Event} :
    NeverNull translate s (event :: rest) ↔ s.Guarded ∧
      ∃ s', event.next translate s = some s' ∧ NeverNull translate s' rest := by
  rw [s.guarded_iff translate]
  constructor
  · intro safe
    have first : ∀ event : Event, (event.next translate s).isSome := by
      intro other
      have ran := safe [] List.nil_prefix other
      simpa [runEvents] using ran
    obtain ⟨s', ran⟩ := Option.isSome_iff_exists.mp (first event)
    refine ⟨first, s', ran, fun before inside other => ?_⟩
    have later := safe (event :: before) (List.cons_prefix_cons.mpr ⟨rfl, inside⟩) other
    rw [runEvents, List.cons_append, List.foldlM_cons, ran] at later
    exact later
  · rintro ⟨first, s', ran, later⟩ before inside other
    cases before with
    | nil =>
      have ran' := first other
      simpa [runEvents] using ran'
    | cons head tail =>
      obtain ⟨rfl, inside'⟩ := List.cons_prefix_cons.mp inside
      rw [runEvents, List.cons_append, List.foldlM_cons, ran]
      exact later tail inside' other

/-- A run is in no danger exactly when it starts guarded and its events are careful. -/
theorem neverNull_iff (events : List Event) (self : s.localNode.key = translate s.localNode.port) :
    NeverNull translate s events ↔ s.Guarded ∧ CarefulRun translate s events := by
  induction events generalizing s with
  | nil =>
    rw [s.guarded_iff translate]
    constructor
    · intro safe
      refine ⟨fun event => ?_, trivial⟩
      have ran := safe [] List.nil_prefix event
      simpa [runEvents] using ran
    · rintro ⟨first, -⟩ before inside event
      rw [List.prefix_nil.mp inside]
      have ran := first event
      simpa [runEvents] using ran
  | cons event rest ih =>
    rw [neverNull_cons]
    constructor
    · rintro ⟨guarded, s', ran, safe⟩
      have self' : s'.localNode.key = translate s'.localNode.port := by
        rw [Event.next_localNode ran]
        exact self
      obtain ⟨guarded', careful⟩ := (ih self').mp safe
      refine ⟨guarded, (event.careful_iff guarded self).mpr ⟨s', ran, guarded'⟩, ?_⟩
      intro after ran'
      rw [← Option.some.inj (ran.symm.trans ran')]
      exact careful
    · rintro ⟨guarded, careful, onward⟩
      obtain ⟨s', ran, guarded'⟩ := (event.careful_iff guarded self).mp careful
      have self' : s'.localNode.key = translate s'.localNode.port := by
        rw [Event.next_localNode ran]
        exact self
      exact ⟨guarded, s', ran, (ih self').mpr ⟨guarded', onward s' ran⟩⟩

/-- A process starts guarded exactly when it starts carefully. -/
theorem Start.careful_iff (translate : ℕ → UInt32) (start : Start) :
    start.Careful ↔ (start.state translate).Guarded := by
  cases start with
  | first garbage port => exact ⟨fun _ => .of_known rfl, fun _ => trivial⟩
  | joined garbage port reply =>
    exact ⟨fun apart alone => absurd alone apart, fun guarded alone => guarded alone rfl⟩
  | refused garbage port =>
    exact ⟨fun apart alone => absurd alone apart, fun guarded alone => guarded alone rfl⟩

/-- However a process starts and whatever happens to it, no message handler dereferences a null
predecessor, at any point of the run, exactly when the process starts carefully and every event is
careful in the state it meets. -/
theorem prenode_never_null_iff (translate : ℕ → UInt32) (start : Start) (events : List Event) :
    NeverNull translate (start.state translate) events ↔
      start.Careful ∧ CarefulRun translate (start.state translate) events := by
  have self : (start.state translate).localNode.key =
      translate (start.state translate).localNode.port := by
    cases start <;> rfl
  rw [start.careful_iff translate]
  exact neverNull_iff events self

/-! ## Nodes of a network -/

/-- A node gets from one state to another by some events. -/
def Evolves (translate : ℕ → UInt32) (s s' : NodeState) : Prop :=
  ∃ events, runEvents translate s events = some s'

/-- Nothing happens. -/
theorem Evolves.refl (translate : ℕ → UInt32) (s : NodeState) : Evolves translate s s := ⟨[], rfl⟩

/-- One event. -/
theorem Evolves.single (event : Event) (ran : event.next translate s = some s') :
    Evolves translate s s' := by
  refine ⟨[event], ?_⟩
  rw [runEvents, List.foldlM_cons, ran]
  rfl

/-- Some events and then some more. -/
theorem Evolves.trans {s'' : NodeState} (first : Evolves translate s s')
    (second : Evolves translate s' s'') : Evolves translate s s'' := by
  obtain ⟨before, ran⟩ := first
  obtain ⟨after, ran'⟩ := second
  refine ⟨before ++ after, ?_⟩
  rw [runEvents, List.foldlM_append]
  exact Option.bind_eq_some_iff.mpr ⟨s', ran, ran'⟩

/-- Every node of a network evolves. -/
def Network.Evolves (translate : ℕ → UInt32) (net net' : Network) : Prop :=
  ∀ x, Chord.Evolves translate (net.state x) (net'.state x)

variable {net net' : Network} {p : ℕ}

/-- A network that stands still. -/
theorem Network.Evolves.refl (translate : ℕ → UInt32) (net : Network) :
    net.Evolves translate net := fun x => .refl translate (net.state x)

/-- Some exchanges and then some more. -/
theorem Network.Evolves.trans {net'' : Network} (first : net.Evolves translate net')
    (second : net'.Evolves translate net'') : net.Evolves translate net'' :=
  fun x => (first x).trans (second x)

/-- One node of a network evolves. -/
theorem Network.Evolves.set (net : Network) (p : ℕ)
    (evolves : Chord.Evolves translate (net.state p) s) :
    net.Evolves translate (net.set p s) := by
  intro x
  by_cases here : x = p
  · rw [here, set_state_self]
    exact evolves
  · rw [set_state_of_ne net here]
    exact .refl translate _

/-- A message that is delivered is an event at its receiver. -/
theorem Network.Evolves.deliver {message : Message} {reply : Bytes}
    (ran : net.deliver translate noLookup p message = some (net', reply)) :
    net.Evolves translate net' := by
  obtain ⟨received, -, ran'⟩ := Option.bind_eq_some_iff.mp ran
  obtain ⟨⟨s', reply'⟩, handled, same⟩ := Option.bind_eq_some_iff.mp ran'
  cases same
  have answered : ∃ reply'', chordNode translate (fun _ => some 0) (net.state p) received =
      some (s', reply'') := by
    cases received with
    | join port =>
      simp only [chordNode, handleJoin] at handled ⊢
      split_ifs at handled ⊢
      · exact ⟨reply, handled⟩
      · cases handled
    | find hash => cases handled
    | stable port | notify port | keepAlive port | resetPre => exact ⟨reply, handled⟩
  obtain ⟨reply'', answered⟩ := answered
  refine .set net p (.single (.receive received 0) ?_)
  simp only [Event.next, answered, Option.map_some]

/-- Connecting to the successor is a run of events at each node. -/
theorem Network.Evolves.connectPostnode {connected : Bool}
    (ran : connectPostnode translate net p = some (net', connected)) :
    net.Evolves translate net' := by
  by_cases live : (net.state p).postnode.port ∈ net.members
  · have stays : Chord.connectPostnode translate net p = some (net, true) := if_pos live
    cases stays.symm.trans ran
    exact .refl translate net
  · rw [connectPostnode_dead live, resetPreNode_eq] at ran
    cases ran
    have taken : net.Evolves translate (net.set p (takeOver translate (net.state p))) :=
      .set net p (.single .takeOver rfl)
    apply taken.trans
    split_ifs
    · exact .set _ _ (.single (.receive .resetPre 0) rfl)
    · exact .refl translate _

/-- `stabilize` is a run of events at each node. -/
theorem Network.Evolves.stabilize (ran : stabilize translate net p = some net') :
    net.Evolves translate net' := by
  obtain ⟨⟨reached, connected⟩, joined, rest⟩ := Option.bind_eq_some_iff.mp ran
  have first := Network.Evolves.connectPostnode joined
  dsimp only at rest
  split_ifs at rest
  · obtain ⟨⟨asked, reply⟩, sent, last⟩ := Option.bind_eq_some_iff.mp rest
    cases last
    have second := Network.Evolves.deliver sent
    have third : asked.Evolves translate
        (asked.set p (stabilizeReply translate (asked.state p) reply)) :=
      .set asked p (.single (.replied reply) rfl)
    exact (first.trans second).trans third
  · cases rest
    exact first

/-- `notify` is a run of events at each node. -/
theorem Network.Evolves.notify (ran : notify translate net p = some net') :
    net.Evolves translate net' := by
  obtain ⟨⟨reached, connected⟩, joined, rest⟩ := Option.bind_eq_some_iff.mp ran
  have first := Network.Evolves.connectPostnode joined
  dsimp only at rest
  split_ifs at rest
  · obtain ⟨⟨told, reply⟩, sent, rfl⟩ := Option.map_eq_some_iff.mp rest
    exact first.trans (Network.Evolves.deliver sent)
  · cases rest
    exact first

/-- `heartBeat` is a run of events at each node. -/
theorem Network.Evolves.heartBeat (ran : heartBeat translate net p = some net') :
    net.Evolves translate net' := by
  unfold Chord.heartBeat at ran
  split at ran
  · cases ran
    exact .refl translate net
  · split_ifs at ran
    · obtain ⟨⟨told, reply⟩, sent, rfl⟩ := Option.map_eq_some_iff.mp ran
      exact .deliver sent
    · cases ran
      exact .set net p (.single .unreachable rfl)

/-- Whatever exchanges the nodes of a network start, each node lives through a run of events. -/
theorem Network.Evolves.runActions (actions : List Action)
    (ran : runActions translate actions net = some net') : net.Evolves translate net' := by
  induction actions generalizing net with
  | nil =>
    cases ran
    exact .refl translate _
  | cons action rest ih =>
    obtain ⟨next, first, later⟩ := Option.bind_eq_some_iff.mp ran
    refine Network.Evolves.trans ?_ (ih later)
    cases action with
    | stabilize p => exact .stabilize first
    | notify p => exact .notify first
    | heartBeat p => exact .heartBeat first

/-! ## A failover to the node itself -/

/-- The second node crashes, the first one fails over to itself and forgets its predecessor; then a
third node joins. -/
theorem prenode_null_after_failover : ∃ s,
    runEvents keyOf (Start.state keyOf (.first (nodeAt keyOf 0) 4000))
        [.receive (.join 5000) 0, .takeOver, .receive .resetPre 0] = some s ∧
      Event.next keyOf s (.receive (.join 6000) 0) = none :=
  ⟨_, rfl, rfl⟩

end TinyTools.Chord
