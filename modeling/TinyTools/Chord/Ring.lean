import TinyTools.Chord.Lookup
import TinyTools.Lib.PointerRing

/-!
# The ring under concurrent joins

Nodes join through any live member, and the exchanges of stabilisation and notification interleave
in any order. Each exchange is one change of the successor and predecessor pointers, or none, so the
pointers stay one ring. Keys enter only through the comparisons of `stabilize`; every other exchange
is safe for whatever port it names.
-/

namespace TinyTools.Chord

open TinyTools.Lib

variable (translate : ℕ → UInt32)

/-- The position of a port on the ring. -/
def ringKey (port : ℕ) : ℕ := (translate port).toNat

/-- The pointers of a network. -/
def Network.pointers (net : Network) : Pointers ℕ where
  members := net.members
  next p := (net.state p).postnode.port
  prev p := (net.state p).prenode.map Node.port

/-- The globals of a live node name live nodes, each with the key of its port. -/
structure NodeState.Knows (members : Finset ℕ) (p : ℕ) (s : NodeState) : Prop where
  /-- The node itself. -/
  self : s.localNode = nodeAt translate p
  /-- The successor. -/
  postnode : ∃ q ∈ members, s.postnode = nodeAt translate q
  /-- The predecessor, when one is known. -/
  prenode : ∀ r, s.prenode = some r → ∃ q ∈ members, r = nodeAt translate q
  /-- The fingers. -/
  finger : ∀ i, ∃ q ∈ members, (s.finTb i).nodeInfo = nodeAt translate q

/-- What every exchange keeps. -/
structure Network.IsSafe (net : Network) : Prop where
  /-- Ports are those of the machine. -/
  ports : ∀ p ∈ net.members, 0 < p ∧ p < 2 ^ 16
  /-- Live nodes know only live nodes. -/
  known : ∀ p ∈ net.members, (net.state p).Knows translate net.members p
  /-- The pointers form one ring. -/
  ring : net.pointers.IsSafe ringSize (ringKey translate)

variable {translate} {net : Network} {p q : ℕ}

/-- A key lies on the ring. -/
theorem ringKey_lt (port : ℕ) : ringKey translate port < ringSize := (translate port).toNat_lt

/-- Replacing one node changes its two pointers. -/
theorem Network.pointers_set (net : Network) (p : ℕ) (s : NodeState) :
    (net.set p s).pointers = ⟨net.members, Function.update net.pointers.next p s.postnode.port,
      Function.update net.pointers.prev p (s.prenode.map Node.port)⟩ := by
  simp only [pointers, set, Pointers.mk.injEq, true_and]
  constructor <;> funext q <;> by_cases here : q = p
  · rw [here, Function.update_self, Function.update_self]
  · rw [Function.update_of_ne here, Function.update_of_ne here]
  · rw [here, Function.update_self, Function.update_self]
  · rw [Function.update_of_ne here, Function.update_of_ne here]

/-- A node is replaced by one that knows live nodes, and its pointers change safely. -/
theorem Network.IsSafe.set (safe : net.IsSafe translate) {s : NodeState}
    (knows : s.Knows translate net.members p)
    (ring : (net.set p s).pointers.IsSafe ringSize (ringKey translate)) :
    (net.set p s).IsSafe translate where
  ports := safe.ports
  known q live := by
    by_cases here : q = p
    · subst here
      rwa [set_state_self]
    · rw [set_state_of_ne net here]
      exact safe.known q live
  ring := ring

/-- A node that keeps both pointers keeps the ring. -/
theorem Network.IsSafe.set_unchanged (safe : net.IsSafe translate) {s : NodeState}
    (knows : s.Knows translate net.members p) (next : s.postnode.port = net.pointers.next p)
    (prev : s.prenode.map Node.port = net.pointers.prev p) :
    (net.set p s).IsSafe translate := by
  apply safe.set knows
  rw [pointers_set, next, prev, Function.update_eq_self, Function.update_eq_self]
  exact safe.ring

/-- The successor of a live node is live. -/
theorem Network.IsSafe.postnode_live (safe : net.IsSafe translate) (live : p ∈ net.members) :
    (net.state p).postnode.port ∈ net.members := safe.ring.closed p live

/-- On a safe network the connection to the successor stands. -/
theorem Network.IsSafe.connectPostnode (safe : net.IsSafe translate) (live : p ∈ net.members) :
    connectPostnode translate net p = some (net, true) := if_pos (safe.postnode_live live)

/-! ## Stabilisation -/

/-- The successor changes only to a port whose key is strictly between. -/
theorem stabilizeReply_cases (translate : ℕ → UInt32) (s : NodeState) (reply : Bytes) :
    stabilizeReply translate s reply = s ∨
      (stabilizeReply translate s reply = { s with postnode := nodeAt translate (readPort reply) } ∧
        0 < readPort reply ∧ Between ringSize s.localNode.key.toNat
          (ringKey translate (readPort reply)) s.postnode.key.toNat) := by
  have hk := s.localNode.key.toNat_lt
  have hs := s.postnode.key.toNat_lt
  have hx := (translate (readPort reply)).toNat_lt
  unfold stabilizeReply
  simp only [gt_iff_lt, UInt32.lt_iff_toNat_lt]
  split_ifs with positive direct wrapped
  · refine Or.inr ⟨rfl, positive, ?_⟩
    unfold Between around clockwise ringSize ringKey
    split_ifs <;> omega
  · refine Or.inr ⟨rfl, positive, ?_⟩
    unfold Between around clockwise ringSize ringKey
    split_ifs <;> omega
  · exact Or.inl rfl
  · exact Or.inl rfl

/-- The port a live node answers to `stable` is its predecessor, and zero when it has none. -/
theorem Network.IsSafe.stableReply (safe : net.IsSafe translate) (live : q ∈ net.members)
    (positive : 0 < readPort (stableReply (net.state q))) :
    readPort (Chord.stableReply (net.state q)) ∈ net.members ∧
      net.pointers.prev q = some (readPort (Chord.stableReply (net.state q))) := by
  unfold Chord.stableReply at *
  cases known : (net.state q).prenode with
  | none =>
    rw [known] at positive
    exact absurd positive (by decide)
  | some r =>
    obtain ⟨x, member, rfl⟩ := (safe.known q live).prenode r known
    have read : readPort (decimal (nodeAt translate x).port) = x :=
      readPort_decimal (safe.ports x member).2
    dsimp only
    rw [read]
    exact ⟨member, congrArg (Option.map Node.port) known⟩

/-- A `stabilize` exchange is safe. -/
theorem Network.IsSafe.stabilize (safe : net.IsSafe translate) (live : p ∈ net.members) :
    ∃ net', stabilize translate net p = some net' ∧ net'.IsSafe translate := by
  have knows := safe.known p live
  have successorLive := safe.postnode_live live
  have fits : (net.state p).localNode.port < 2 ^ 16 := by
    rw [knows.self]
    exact (safe.ports p live).2
  refine ⟨_, stabilize_live successorLive fits, ?_⟩
  rcases stabilizeReply_cases translate (net.state p)
    (Chord.stableReply (net.state (net.state p).postnode.port)) with
    same | ⟨changed, positive, between⟩
  · rw [same, set_same]
    exact safe
  · obtain ⟨member, known⟩ := safe.stableReply successorLive positive
    obtain ⟨q, -, post⟩ := knows.postnode
    rw [changed]
    refine safe.set ⟨knows.self, ⟨_, member, rfl⟩, knows.prenode, knows.finger⟩ ?_
    have named : (net.state p).postnode.key.toNat =
        ringKey translate (net.state p).postnode.port := by
      rw [post]
      rfl
    rw [knows.self, named] at between
    have adopted := safe.ring.adopt ringKey_lt live known between
    rw [pointers_set, show (net.state p).prenode.map Node.port = net.pointers.prev p from rfl,
      Function.update_eq_self]
    exact adopted

/-! ## Notification -/

/-- The predecessor changes only to the sender. -/
theorem handleNotify_cases (translate : ℕ → UInt32) (s : NodeState) (result : ℕ) :
    handleNotify translate s result = s ∨
      handleNotify translate s result = { s with prenode := some (nodeAt translate result) } := by
  unfold handleNotify
  cases s.prenode with
  | none => exact Or.inr rfl
  | some r =>
    dsimp only
    split_ifs
    · exact Or.inr rfl
    · exact Or.inr rfl
    · exact Or.inl rfl

/-- A `notify` exchange is safe. -/
theorem Network.IsSafe.notify (safe : net.IsSafe translate) (live : p ∈ net.members) :
    ∃ net', notify translate net p = some net' ∧ net'.IsSafe translate := by
  have knows := safe.known p live
  have successorLive := safe.postnode_live live
  have told := safe.known _ successorLive
  have fits : (net.state p).localNode.port < 2 ^ 16 := by
    rw [knows.self]
    exact (safe.ports p live).2
  refine ⟨_, notify_live successorLive fits, ?_⟩
  rcases handleNotify_cases translate (net.state (net.state p).postnode.port)
    (net.state p).localNode.port with same | changed
  · rw [same, set_same]
    exact safe
  · rw [changed]
    refine safe.set ⟨told.self, told.postnode, ?_, told.finger⟩ ?_
    · rintro r holds
      obtain rfl := Option.some.inj holds
      exact ⟨p, live, by rw [knows.self]; rfl⟩
    · have announced := safe.ring.announce live
      rw [pointers_set]
      simp only [knows.self, nodeAt, Option.map_some]
      rw [show (net.state (net.state p).postnode.port).postnode.port =
        net.pointers.next (net.state p).postnode.port from rfl, Function.update_eq_self]
      exact announced

/-! ## Heartbeats and fingers -/

/-- A `heartBeat` exchange is safe. -/
theorem Network.IsSafe.heartBeat (safe : net.IsSafe translate) (live : p ∈ net.members) :
    ∃ net', heartBeat translate net p = some net' ∧ net'.IsSafe translate := by
  have knows := safe.known p live
  cases known : (net.state p).prenode with
  | none => exact ⟨net, by simp only [Chord.heartBeat, known], safe⟩
  | some r =>
    obtain ⟨q, member, rfl⟩ := knows.prenode r known
    have told := safe.known q member
    have fits : (net.state p).postnode.port < 2 ^ 16 := (safe.ports _ (safe.postnode_live live)).2
    refine ⟨_, heartBeat_live known member fits, ?_⟩
    exact safe.set_unchanged ⟨told.self, told.postnode, told.prenode, told.finger⟩ rfl rfl

/-- Refilling a finger with a live node is safe. -/
theorem Network.IsSafe.fixFingers (safe : net.IsSafe translate) (live : p ∈ net.members)
    (i : Fin 32) (answered : q ∈ net.members) :
    (fixFingers translate net p i q).IsSafe translate := by
  have knows := safe.known p live
  refine safe.set_unchanged ⟨knows.self, knows.postnode, knows.prenode, fun j => ?_⟩ rfl rfl
  by_cases here : j = i
  · refine ⟨q, answered, ?_⟩
    simp only [fixFinger, here, Function.update_self]
  · simp only [fixFinger, Function.update_of_ne here]
    exact knows.finger j

/-! ## Joins -/

/-- A new node adds its two pointers. -/
theorem Network.pointers_enroll (net : Network) (n : ℕ) (s : NodeState) :
    (net.enroll n s).pointers = ⟨insert n net.members,
      Function.update net.pointers.next n s.postnode.port,
      Function.update net.pointers.prev n (s.prenode.map Node.port)⟩ := by
  have replaced := pointers_set net n s
  simp only [pointers, set, enroll, Pointers.mk.injEq, true_and] at replaced ⊢
  exact replaced

/-- Knowing live nodes survives the arrival of others. -/
theorem NodeState.Knows.mono {members more : Finset ℕ} {s : NodeState}
    (knows : s.Knows translate members p) (subset : members ⊆ more) :
    s.Knows translate more p where
  self := knows.self
  postnode := knows.postnode.imp fun _ ⟨member, same⟩ => ⟨subset member, same⟩
  prenode r holds := (knows.prenode r holds).imp fun _ ⟨member, same⟩ => ⟨subset member, same⟩
  finger i := (knows.finger i).imp fun _ ⟨member, same⟩ => ⟨subset member, same⟩

/-- A node is enrolled when it knows live nodes and its pointers keep the ring. -/
theorem Network.IsSafe.enroll {before : Network} {n : ℕ} {s : NodeState}
    (ports : ∀ p ∈ before.members, 0 < p ∧ p < 2 ^ 16) (port : 0 < n ∧ n < 2 ^ 16)
    (known : ∀ p ∈ before.members, (before.state p).Knows translate (insert n before.members) p)
    (knows : s.Knows translate (insert n before.members) n)
    (ring : (before.enroll n s).pointers.IsSafe ringSize (ringKey translate)) :
    (before.enroll n s).IsSafe translate where
  ports p inside := by
    rcases Finset.mem_insert.mp inside with rfl | old
    · exact port
    · exact ports p old
  known p inside := by
    by_cases here : p = n
    · subst here
      simpa only [Network.enroll, Function.update_self] using knows
    · simp only [Network.enroll, Function.update_of_ne here]
      exact known p (Finset.mem_of_mem_insert_of_ne inside here)
  ring := ring

/-- The state of a new node that was answered a live port. -/
theorem joinReply_knows {members : Finset ℕ} (garbage : Node) {n answer : ℕ} {reply : Bytes}
    (self : n ∈ members) (target : answer ∈ members) (read : readPort reply = answer) :
    (joinReply translate (startNode translate garbage n) reply).Knows translate members n where
  self := rfl
  postnode := ⟨answer, target, by rw [joinReply, read]⟩
  prenode r holds := by cases holds
  finger i := ⟨n, self, rfl⟩

/-- A `join` exchange is safe. -/
theorem Network.IsSafe.join (safe : net.IsSafe translate) (garbage : Node) {n m answer : ℕ}
    (port : 0 < n ∧ n < 2 ^ 16) (fresh : n ∉ net.members)
    (apart : ∀ p ∈ net.members, translate p ≠ translate n) (live : m ∈ net.members)
    (answered : answer ∈ net.members) :
    ∃ net', join translate garbage net n m answer = some net' ∧ net'.IsSafe translate := by
  have keys : ∀ p ∈ net.members, ringKey translate p ≠ ringKey translate n := fun p inside same =>
    apart p inside (UInt32.toNat_inj.mp same)
  have knows := safe.known m live
  have fits : (Message.join n).Fits := port.2
  have selfPort : (net.state m).localNode.port = m := by rw [knows.self]; rfl
  have hasN : n ∈ insert n net.members := Finset.mem_insert_self ..
  have more : net.members ⊆ insert n net.members := Finset.subset_insert ..
  by_cases alone : (net.state m).postnode.port = m
  · -- the only node takes the new one on both sides
    have back := (safe.ring.lone m live alone).2
    obtain ⟨r, holds, -⟩ := Option.map_eq_some_iff.mp back
    have handled : chordNode translate (fun _ => some answer) (net.state m) (.join n) =
        some ({ net.state m with
          postnode := nodeAt translate n
          prenode := some (nodeAt translate n) }, decimal m) := by
      simp only [chordNode, handleJoin, selfPort, alone, if_true, holds, Option.bind_eq_bind,
        Option.bind_some, Option.pure_def]
    refine ⟨_, by rw [Chord.join, deliver_eq translate fits handled]; rfl, ?_⟩
    refine IsSafe.enroll safe.ports port ?_
      (joinReply_knows garbage hasN (more live) (readPort_decimal (safe.ports m live).2)) ?_
    · intro p inside
      by_cases here : p = m
      · subst here
        rw [set_state_self]
        refine ⟨knows.self, ⟨n, hasN, rfl⟩, fun r holds => ?_, (knows.mono more).finger⟩
        obtain rfl := Option.some.inj holds
        exact ⟨n, hasN, rfl⟩
      · rw [set_state_of_ne net here]
        exact (safe.known p inside).mono more
    · have paired := safe.ring.pair ringKey_lt live alone fresh keys
      rw [pointers_enroll, pointers_set]
      have read : readPort (decimal m) = m := readPort_decimal (safe.ports m live).2
      simp only [joinReply, startNode, nodeAt, read, Option.map_some, Option.map_none]
      exact paired
  · -- every other node passes on the answer of its lookup
    have handled : chordNode translate (fun _ => some answer) (net.state m) (.join n) =
        some (net.state m, decimal answer) := by
      simp only [chordNode, handleJoin, selfPort, alone, if_false, Option.bind_eq_bind,
        Option.bind_some, Option.pure_def]
    have read : readPort (decimal answer) = answer := readPort_decimal (safe.ports _ answered).2
    have asked := deliver_eq translate fits handled
    rw [set_same] at asked
    refine ⟨_, by rw [Chord.join, asked]; rfl, ?_⟩
    refine IsSafe.enroll safe.ports port (fun p inside => (safe.known p inside).mono more)
      (joinReply_knows garbage hasN (more answered) read) ?_
    have joined := safe.ring.join live alone fresh keys answered
    rw [pointers_enroll]
    simp only [joinReply, startNode, nodeAt, read, Option.map_none]
    exact joined

/-- A first node is a ring by itself. -/
theorem firstNetwork_safe (garbage : Node) {port : ℕ} (valid : 0 < port ∧ port < 2 ^ 16) :
    (firstNetwork translate garbage port).IsSafe translate where
  ports p inside := by
    rw [firstNetwork, Finset.mem_singleton] at inside
    rwa [inside]
  known p inside := by
    have same : p = port := Finset.mem_singleton.mp inside
    subst same
    refine ⟨rfl, ⟨p, inside, rfl⟩, fun r holds => ?_, fun i => ⟨p, inside, rfl⟩⟩
    obtain rfl := Option.some.inj holds
    exact ⟨p, inside, rfl⟩
  ring := Pointers.IsSafe.single (m := port) rfl rfl rfl

/-! ## Lookups answer live nodes -/

/-- Whatever the fingers, a lookup answers a live node. -/
theorem Network.IsSafe.lookup_live (safe : net.IsSafe translate) {hash : UInt32} (fuel : ℕ) :
    ∀ p ∈ net.members, ∀ r,
      findClosestPort (find translate net fuel) (net.state p) hash = some r → r ∈ net.members := by
  have step {ask : ℕ → UInt32 → Option ℕ}
      (forwarded : ∀ f ∈ net.members, ∀ r, ask f hash = some r → r ∈ net.members) (p : ℕ)
      (live : p ∈ net.members) (r : ℕ)
      (answered : findClosestPort ask (net.state p) hash = some r) : r ∈ net.members := by
    have knows := safe.known p live
    rcases findClosestPort_cases ask (net.state p) hash with
      ⟨-, found⟩ | ⟨-, -, found⟩ | ⟨-, i, -, found⟩
    · obtain rfl := Option.some.inj (found.symm.trans answered)
      exact safe.postnode_live live
    · obtain rfl := Option.some.inj (found.symm.trans answered)
      rwa [knows.self]
    · obtain ⟨f, member, same⟩ := knows.finger i
      rw [found, same] at answered
      exact forwarded f member r answered
  induction fuel with
  | zero => exact step fun f _ r reply => by cases reply
  | succ fuel ih =>
    apply step
    intro f member r reply
    obtain ⟨result, found, -, rfl⟩ := lookup_of_find translate member reply
    have live := ih f member result found
    rwa [readPort_decimal (safe.ports result live).2]

/-! ## Runs -/

/-- One exchange, by any node and with any live node as the answer of a lookup. -/
inductive Step (translate : ℕ → UInt32) : Network → Network → Prop
  /-- A node with a new port and a new key joins through a live one. -/
  | join {net net' : Network} {garbage : Node} {n m answer : ℕ} (port : 0 < n ∧ n < 2 ^ 16)
    (fresh : n ∉ net.members) (apart : ∀ p ∈ net.members, translate p ≠ translate n)
    (live : m ∈ net.members) (answered : answer ∈ net.members)
    (ran : join translate garbage net n m answer = some net') : Step translate net net'
  /-- A node stabilises. -/
  | stabilize {net net' : Network} {p : ℕ} (live : p ∈ net.members)
    (ran : stabilize translate net p = some net') : Step translate net net'
  /-- A node notifies its successor. -/
  | notify {net net' : Network} {p : ℕ} (live : p ∈ net.members)
    (ran : notify translate net p = some net') : Step translate net net'
  /-- A node sends its heartbeat. -/
  | heartBeat {net net' : Network} {p : ℕ} (live : p ∈ net.members)
    (ran : heartBeat translate net p = some net') : Step translate net net'
  /-- A node refreshes a finger. -/
  | fixFingers {net : Network} {p answer : ℕ} {i : Fin 32} (live : p ∈ net.members)
    (answered : answer ∈ net.members) : Step translate net (fixFingers translate net p i answer)

/-- The networks that grow from a first node. -/
inductive Reachable (translate : ℕ → UInt32) : Network → Prop
  /-- The first node. -/
  | first (garbage : Node) {port : ℕ} (valid : 0 < port ∧ port < 2 ^ 16) :
    Reachable translate (firstNetwork translate garbage port)
  /-- One more exchange. -/
  | step {net net' : Network} (before : Reachable translate net) (next : Step translate net net') :
    Reachable translate net'

/-- Every exchange is safe. -/
theorem Step.safe {net' : Network} (step : Step translate net net') (safe : net.IsSafe translate) :
    net'.IsSafe translate := by
  cases step with
  | @join _ garbage _ _ _ port fresh apart live answered ran =>
    obtain ⟨_, ran', safe'⟩ := safe.join garbage port fresh apart live answered
    exact Option.some.inj (ran.symm.trans ran') ▸ safe'
  | stabilize live ran =>
    obtain ⟨_, ran', safe'⟩ := safe.stabilize live
    exact Option.some.inj (ran.symm.trans ran') ▸ safe'
  | notify live ran =>
    obtain ⟨_, ran', safe'⟩ := safe.notify live
    exact Option.some.inj (ran.symm.trans ran') ▸ safe'
  | heartBeat live ran =>
    obtain ⟨_, ran', safe'⟩ := safe.heartBeat live
    exact Option.some.inj (ran.symm.trans ran') ▸ safe'
  | fixFingers live answered => exact safe.fixFingers live _ answered

/-- Every reachable network is safe. -/
theorem Reachable.safe (reachable : Reachable translate net) : net.IsSafe translate := by
  induction reachable with
  | first garbage valid => exact firstNetwork_safe garbage valid
  | step _ next ih => exact next.safe ih

/-- A join whose answer is the one of the member's own lookup is a step. -/
theorem Reachable.join_lookup (reachable : Reachable translate net) {garbage : Node}
    {n m answer : ℕ} {net' : Network} (port : 0 < n ∧ n < 2 ^ 16) (fresh : n ∉ net.members)
    (apart : ∀ p ∈ net.members, translate p ≠ translate n) (live : m ∈ net.members)
    (looked : LooksUp translate net m (translate n) answer)
    (ran : join translate garbage net n m answer = some net') : Reachable translate net' := by
  obtain ⟨fuel, found⟩ := looked
  exact reachable.step (.join port fresh apart live
    (reachable.safe.lookup_live fuel m live answer found) ran)

/-! ## Ring safety -/

/-- The successor pointer of a node. -/
def Network.successor (net : Network) (p : ℕ) : ℕ := (net.state p).postnode.port

/-- A node's predecessor has that node for its successor. -/
def PrenodesLinked (net : Network) : Prop :=
  ∀ s ∈ net.members, ∀ p, (net.state s).prenode = some p →
    p.port ∈ net.members ∧ net.node p.port = p ∧ net.successor p.port = s

/-- Following successors there is exactly one cycle, every chain leads into it, and it visits its
members in clockwise order, once around. -/
def OneRing (net : Network) : Prop :=
  ∃ cycle ⊆ net.members, cycle.Nonempty ∧
    (∀ x ∈ net.members, net.successor x ∈ net.members) ∧
    (∀ x ∈ net.members, ∃ n, net.successor^[n] x ∈ cycle) ∧
    (∀ x ∈ net.members, x ∈ Function.periodicPts net.successor ↔ x ∈ cycle) ∧
    (∀ c ∈ cycle, ∀ d ∈ cycle, ∃ n, net.successor^[n] c = d) ∧
    ∀ c ∈ cycle, IsNext ringSize net.position cycle (net.position c) (net.successor c)

/-- In every reachable network predecessors are linked and the successors form one ring. -/
theorem reachable_ring_safe (translate : ℕ → UInt32) (net : Network)
    (reachable : Reachable translate net) : PrenodesLinked net ∧ OneRing net := by
  have safe := reachable.safe
  have position : ∀ p ∈ net.members, net.position p = ringKey translate p := by
    intro p live
    rw [Network.position, Network.node, (safe.known p live).self]
    rfl
  constructor
  · intro s live p holds
    obtain ⟨q, member, rfl⟩ := (safe.known s live).prenode p holds
    have linked := safe.ring.sound s live q (congrArg (Option.map Node.port) holds)
    exact ⟨member, (safe.known q member).self, linked.2⟩
  · obtain ⟨cycle, ring⟩ := safe.ring.ring
    have bound : ∀ x ∈ net.members, ringKey translate x < ringSize := fun x _ => ringKey_lt x
    refine ⟨cycle, ring.inside, ring.inhabited, safe.ring.closed, ring.reached,
      fun x live => ring.mem_periodicPts bound safe.ring.distinct live,
      fun c start d stop => ring.visits bound safe.ring.distinct start stop, fun c inside => ?_⟩
    obtain ⟨member, nearest⟩ := ring.ordered c inside
    refine ⟨member, fun r rest => ?_⟩
    rw [position c (ring.inside inside), position r (ring.inside rest),
      position (net.successor c) (ring.inside member)]
    exact nearest r rest

/-- The first node alone, and the network in which a second one has joined it and has told it. -/
theorem reachable_ring_safe_pair : ∃ joined told,
    join keyOf (nodeAt keyOf 0) (firstNetwork keyOf (nodeAt keyOf 0) 4000) 5000 4000 4000 =
      some joined ∧ notify keyOf joined 5000 = some told ∧ joined.members = {5000, 4000} ∧
      PrenodesLinked told ∧ OneRing told := by
  have first : Reachable keyOf (firstNetwork keyOf (nodeAt keyOf 0) 4000) :=
    .first (nodeAt keyOf 0) (by decide)
  obtain ⟨joined, ran, -⟩ : ∃ joined, join keyOf (nodeAt keyOf 0) _ 5000 4000 4000 = some joined ∧
      joined.IsSafe keyOf :=
    first.safe.join (nodeAt keyOf 0) (by decide) (by decide) (by decide) (by decide) (by decide)
  have members : joined.members = {5000, 4000} := by
    obtain rfl := Option.some.inj ran
    rfl
  have second := first.step (.join (by decide) (by decide) (by decide) (by decide) (by decide) ran)
  obtain ⟨told, notified, -⟩ := second.safe.notify (p := 5000) (by rw [members]; decide)
  have third := second.step (.notify (by rw [members]; decide) notified)
  exact ⟨joined, told, ran, notified, members, reachable_ring_safe keyOf told third⟩

end TinyTools.Chord
