import TinyTools.Chord.Fingers
import TinyTools.Chord.Neighbours
import TinyTools.Chord.Repair
import TinyTools.Lib.Settling

/-!
# Executions

What the nodes of a network do is a sequence of moves: joins, and the four exchanges of
`updateFingerTable`. On a safe network each move is one change of one node, described here once.
`stabilize` and `notify` change a pointer exactly where the pointers leave room for it.
-/

namespace TinyTools.Chord

open TinyTools.Lib Filter

variable (translate : ℕ → UInt32)

/-- What a node does next, with the port that its lookup answered. -/
inductive Move
  /-- A new node joins through a live one. -/
  | join (garbage : Node) (n m answer : ℕ)
  /-- `stabilize`. -/
  | stabilize (p : ℕ)
  /-- `notify`. -/
  | notify (p : ℕ)
  /-- `heartBeat`. -/
  | heartBeat (p : ℕ)
  /-- `fix_fingers`. -/
  | fixFingers (p : ℕ) (i : Fin 32) (answer : ℕ)
deriving DecidableEq

/-- A node that joins has a port and a key of its own, everyone else lives, and lookups answer live
nodes. -/
def Move.Enabled (net : Network) : Move → Prop
  | .join _ n m answer => (0 < n ∧ n < 2 ^ 16) ∧ n ∉ net.members ∧
      (∀ p ∈ net.members, translate p ≠ translate n) ∧ m ∈ net.members ∧ answer ∈ net.members
  | .stabilize p | .notify p | .heartBeat p => p ∈ net.members
  | .fixFingers p _ answer => p ∈ net.members ∧ answer ∈ net.members

/-- The move itself. -/
def Move.run (net : Network) : Move → Option Network
  | .join garbage n m answer => Chord.join translate garbage net n m answer
  | .stabilize p => Chord.stabilize translate net p
  | .notify p => Chord.notify translate net p
  | .heartBeat p => Chord.heartBeat translate net p
  | .fixFingers p i answer => some (Chord.fixFingers translate net p i answer)

/-- The move is no join. -/
def Move.Stays : Move → Prop
  | .join .. => False
  | _ => True

/-- A move that leaves the pointers alone finds no room for a change. -/
def Move.Idle (s : Pointers ℕ) : Move → Prop
  | .stabilize p => ∀ x, ¬ s.Adopts ringSize (ringKey translate) p x
  | .notify p => ¬ s.Announces ringSize (ringKey translate) p
  | _ => True

/-- One of the changes that the pointers have room for has been made. -/
def Fills (s t : Pointers ℕ) : Prop :=
  ¬ s.IsStill ringSize (ringKey translate) ∧
    t.slack ringSize (ringKey translate) < s.slack ringSize (ringKey translate)

variable {translate} {net net' : Network} {move : Move} {p : ℕ}

/-- A move is a step. -/
theorem Move.step {move : Move} (enabled : move.Enabled translate net)
    (ran : move.run translate net = some net') : Step translate net net' := by
  cases move with
  | join garbage n m answer =>
    obtain ⟨port, fresh, apart, live, answered⟩ := enabled
    exact .join port fresh apart live answered ran
  | stabilize p => exact .stabilize enabled ran
  | notify p => exact .notify enabled ran
  | heartBeat p => exact .heartBeat enabled ran
  | fixFingers p i answer =>
    obtain rfl := Option.some.inj ran
    exact .fixFingers enabled.1 enabled.2

/-- A move runs on a safe network and leaves it safe. -/
theorem Network.IsSafe.runs (safe : net.IsSafe translate) {move : Move}
    (enabled : move.Enabled translate net) :
    ∃ net', move.run translate net = some net' ∧ net'.IsSafe translate := by
  cases move with
  | join garbage n m answer =>
    obtain ⟨port, fresh, apart, live, answered⟩ := enabled
    exact safe.join garbage port fresh apart live answered
  | stabilize p => exact safe.stabilize enabled
  | notify p => exact safe.notify enabled
  | heartBeat p => exact safe.heartBeat enabled
  | fixFingers p i answer => exact ⟨_, rfl, safe.fixFingers enabled.1 i enabled.2⟩

/-! ## What one move does -/

/-- The record of a live node. -/
theorem Network.IsSafe.node_eq (safe : net.IsSafe translate) (live : p ∈ net.members) :
    net.node p = nodeAt translate p := (safe.known p live).self

/-- The position of a live node. -/
theorem Network.IsSafe.position_eq (safe : net.IsSafe translate) (live : p ∈ net.members) :
    net.position p = ringKey translate p := by
  rw [position, safe.node_eq live]
  rfl

/-- A safe network is a ring. -/
theorem Network.IsSafe.isRing (safe : net.IsSafe translate) (live : p ∈ net.members) :
    IsRing net where
  inhabited := ⟨p, live⟩
  ports := safe.ports
  self q inside := by
    rw [safe.node_eq inside]
    rfl
  distinct := by
    intro x hx y hy same
    rw [safe.position_eq hx, safe.position_eq hy] at same
    exact safe.ring.distinct hx hy same

/-- The fingers of a safe network name live nodes. -/
theorem Network.IsSafe.liveFingers (safe : net.IsSafe translate) : LiveFingers net := by
  intro p live i
  obtain ⟨f, member, same⟩ := (safe.known p live).finger i
  exact ⟨f, member, same.trans (safe.node_eq member).symm⟩

/-- Live nodes with one key are the same. -/
theorem Network.IsSafe.eq_of_key (safe : net.IsSafe translate) {x y : ℕ} (hx : x ∈ net.members)
    (hy : y ∈ net.members) (same : translate x = translate y) : x = y :=
  safe.ring.distinct hx hy (congrArg UInt32.toNat same)

/-- The record of a live node and that of its successor. -/
theorem Network.IsSafe.records (safe : net.IsSafe translate) (live : p ∈ net.members) :
    (net.state p).localNode = nodeAt translate p ∧
      (net.state p).postnode = nodeAt translate (net.pointers.next p) := by
  have knows := safe.known p live
  obtain ⟨q, -, post⟩ := knows.postnode
  refine ⟨knows.self, ?_⟩
  change (net.state p).postnode = nodeAt translate (net.state p).postnode.port
  rw [post]
  rfl

/-- `stabilize` adopts exactly where the pointers leave room for it. -/
theorem Network.IsSafe.stabilize_effect (safe : net.IsSafe translate) (live : p ∈ net.members) :
    (∃ x, net.pointers.Adopts ringSize (ringKey translate) p x ∧ Chord.stabilize translate net p =
        some (net.set p { net.state p with postnode := nodeAt translate x })) ∨
      (∀ x, ¬ net.pointers.Adopts ringSize (ringKey translate) p x) ∧
        Chord.stabilize translate net p = some net := by
  obtain ⟨self, post⟩ := safe.records live
  have successorLive := safe.postnode_live live
  have told := safe.known _ successorLive
  have fits : (net.state p).localNode.port < 2 ^ 16 := by
    rw [self]
    exact (safe.ports p live).2
  rw [stabilize_live successorLive fits]
  have kept (same : stabilizeReply translate (net.state p)
      (Chord.stableReply (net.state (net.state p).postnode.port)) = net.state p) :
      some (net.set p (stabilizeReply translate (net.state p)
        (Chord.stableReply (net.state (net.state p).postnode.port)))) = some net := by
    rw [same, set_same]
  cases known : (net.state (net.state p).postnode.port).prenode with
  | none =>
    refine Or.inr ⟨fun x adopts => ?_, kept ?_⟩
    · have holds := adopts.1
      change (net.state (net.state p).postnode.port).prenode.map Node.port = some x at holds
      rw [known] at holds
      cases holds
    · unfold stabilizeReply Chord.stableReply
      rw [known]
      exact if_neg (by decide)
  | some r =>
    obtain ⟨x, member, rfl⟩ := told.prenode r known
    have prev : net.pointers.prev (net.pointers.next p) = some x :=
      congrArg (Option.map Node.port) known
    have reply : Chord.stableReply (net.state (net.state p).postnode.port) = decimal x := by
      rw [Chord.stableReply, known]
      rfl
    rw [reply] at kept ⊢
    by_cases alone : net.pointers.next p = p
    · -- a node by itself is its own predecessor, too
      refine Or.inr ⟨fun y adopts => ?_, kept (stabilizeReply_alone ?_ _)⟩
      · have back := (safe.ring.lone p live alone).2
        have holds := adopts.1
        rw [alone, back] at holds
        obtain rfl := Option.some.inj holds
        exact adopts.2.1 rfl
      · rw [post, self, alone]
    · have keys : (net.state p).postnode.key ≠ (net.state p).localNode.key := by
        rw [post, self]
        exact fun same => alone (safe.eq_of_key successorLive live same)
      have named : x = (net.state p).localNode.port ↔
          translate x = (net.state p).localNode.key := by
        rw [self]
        exact ⟨congrArg translate, safe.eq_of_key member live⟩
      have follows := stabilizeFollows_of_ne keys named (safe.ports x member)
      unfold StabilizeFollows at follows
      have span : Between ringSize (net.state p).localNode.key.toNat (ringKey translate x)
          (net.state p).postnode.key.toNat ↔ Between ringSize (ringKey translate p)
            (ringKey translate x) (ringKey translate (net.pointers.next p)) := by
        rw [self, post]
        rfl
      by_cases between : Between ringSize (net.state p).localNode.key.toNat (ringKey translate x)
        (net.state p).postnode.key.toNat
      · have taken := follows.trans (if_pos between)
        exact Or.inl ⟨x, ⟨prev, span.mp between⟩, by rw [taken]⟩
      · refine Or.inr ⟨fun y adopts => ?_, kept (follows.trans (if_neg between))⟩
        obtain rfl := Option.some.inj (prev.symm.trans adopts.1)
        exact between (span.mpr adopts.2)

/-- `notify` announces exactly where the pointers leave room for it. -/
theorem Network.IsSafe.notify_effect (safe : net.IsSafe translate) (live : p ∈ net.members) :
    (net.pointers.Announces ringSize (ringKey translate) p ∧ Chord.notify translate net p =
        some (net.set (net.pointers.next p) { net.state (net.pointers.next p) with
          prenode := some (nodeAt translate p) })) ∨
      ¬ net.pointers.Announces ringSize (ringKey translate) p ∧
        Chord.notify translate net p = some net := by
  obtain ⟨self, post⟩ := safe.records live
  have successorLive := safe.postnode_live live
  have told := safe.known _ successorLive
  have fits : (net.state p).localNode.port < 2 ^ 16 := by
    rw [self]
    exact (safe.ports p live).2
  rw [notify_live successorLive fits, self]
  change (_ ∧ some (net.set (net.pointers.next p) (handleNotify translate
    (net.state (net.pointers.next p)) p)) = _) ∨ _ ∧ some (net.set (net.pointers.next p)
      (handleNotify translate (net.state (net.pointers.next p)) p)) = _
  have kept (same : handleNotify translate (net.state (net.pointers.next p)) p =
      net.state (net.pointers.next p)) : some (net.set (net.pointers.next p)
        (handleNotify translate (net.state (net.pointers.next p)) p)) = some net := by
    rw [same, set_same]
  cases known : (net.state (net.pointers.next p)).prenode with
  | none =>
    have taken : handleNotify translate (net.state (net.pointers.next p)) p =
        { net.state (net.pointers.next p) with prenode := some (nodeAt translate p) } := by
      rw [handleNotify, known]
    refine Or.inl ⟨fun r holds => ?_, by rw [taken]⟩
    change (net.state (net.pointers.next p)).prenode.map Node.port = some r at holds
    rw [known] at holds
    cases holds
  | some r =>
    obtain ⟨x, member, rfl⟩ := told.prenode r known
    have prev : net.pointers.prev (net.pointers.next p) = some x :=
      congrArg (Option.map Node.port) known
    have announces : net.pointers.Announces ringSize (ringKey translate) p ↔
        Between ringSize (ringKey translate x) (ringKey translate p)
          (ringKey translate (net.pointers.next p)) := by
      constructor
      · intro every
        exact every x prev
      · intro between y holds
        obtain rfl := Option.some.inj (prev.symm.trans holds)
        exact between
    by_cases alone : x = net.pointers.next p
    · -- its own predecessor is a node by itself
      have linked := (safe.ring.sound _ successorLive x prev).2
      have only := (safe.ring.lone x member (linked.trans alone.symm)).1
      have same : p = x := by
        have inside : p ∈ net.pointers.members := live
        rwa [only, Finset.mem_singleton] at inside
      have keys : (nodeAt translate x).key = (net.state (net.pointers.next p)).localNode.key := by
        have here : (net.state (net.pointers.next p)).localNode = _ := told.self
        rw [here, alone]
        rfl
      refine Or.inr ⟨fun holds => ?_, kept (handleNotify_alone known keys)⟩
      exact (announces.mp holds).1 (congrArg (ringKey translate) same)
    · have here : (net.state (net.pointers.next p)).localNode =
          nodeAt translate (net.pointers.next p) := told.self
      have keys : (nodeAt translate x).key ≠ (net.state (net.pointers.next p)).localNode.key := by
        rw [here]
        exact fun same => alone (safe.eq_of_key member successorLive same)
      have follows := @handleNotify_of_ne translate _ p _ known keys
      have span : Between ringSize (nodeAt translate x).key.toNat (ringKey translate p)
          (net.state (net.pointers.next p)).localNode.key.toNat ↔
            Between ringSize (ringKey translate x) (ringKey translate p)
              (ringKey translate (net.pointers.next p)) := by
        rw [here]
        rfl
      by_cases between : Between ringSize (nodeAt translate x).key.toNat (ringKey translate p)
        (net.state (net.pointers.next p)).localNode.key.toNat
      · have taken := follows.trans (if_pos between)
        exact Or.inl ⟨announces.mpr (span.mp between), by rw [taken]⟩
      · refine Or.inr ⟨fun holds => ?_, kept (follows.trans (if_neg between))⟩
        exact between (span.mpr (announces.mp holds))

/-- `heartBeat` tells the predecessor who comes after the node. -/
theorem Network.IsSafe.heartBeat_effect (safe : net.IsSafe translate) (live : p ∈ net.members) :
    (∃ q, net.pointers.prev p = some q ∧ Chord.heartBeat translate net p =
        some (net.set q { net.state q with
          postnode2 := nodeAt translate (net.pointers.next p) })) ∨
      net.pointers.prev p = none ∧ Chord.heartBeat translate net p = some net := by
  cases known : (net.state p).prenode with
  | none =>
    refine Or.inr ⟨congrArg (Option.map Node.port) known, ?_⟩
    simp only [Chord.heartBeat, known]
  | some r =>
    obtain ⟨q, member, rfl⟩ := (safe.known p live).prenode r known
    have fits : (net.state p).postnode.port < 2 ^ 16 := (safe.ports _ (safe.postnode_live live)).2
    exact Or.inl ⟨q, congrArg (Option.map Node.port) known, heartBeat_live known member fits⟩

/-- A join adds its node. -/
theorem join_members {garbage : Node} {n m answer : ℕ}
    (ran : Chord.join translate garbage net n m answer = some net') :
    net'.members = insert n net.members := by
  obtain ⟨⟨asked, reply⟩, delivered, enrolled⟩ := Option.bind_eq_some_iff.mp ran
  obtain ⟨received, -, handled⟩ := Option.bind_eq_some_iff.mp delivered
  obtain ⟨⟨s, text⟩, -, same⟩ := Option.bind_eq_some_iff.mp handled
  obtain ⟨rfl, -⟩ := Prod.mk.inj (Option.some.inj same)
  obtain rfl := Option.some.inj enrolled
  rfl

/-- A move changes the pointers where they have room for it, and is idle otherwise. -/
theorem Network.IsSafe.run_pointers (safe : net.IsSafe translate) (stays : move.Stays)
    (enabled : move.Enabled translate net) (ran : move.run translate net = some net') :
    net'.members = net.members ∧ (net'.pointers = net.pointers ∧ move.Idle translate net.pointers ∨
      Fills translate net.pointers net'.pointers) := by
  cases move with
  | join => exact stays.elim
  | stabilize p =>
    rcases safe.stabilize_effect enabled with ⟨x, adopts, same⟩ | ⟨idle, same⟩
    · obtain rfl := Option.some.inj (ran.symm.trans same)
      have adopted : (net.set p { net.state p with postnode := nodeAt translate x }).pointers =
          net.pointers.adopt p x := by
        rw [pointers_set]
        exact congrArg (Pointers.mk _ _) (Function.update_eq_self p net.pointers.prev)
      refine ⟨rfl, Or.inr ⟨fun still => (still p enabled).1 x adopts, ?_⟩⟩
      rw [adopted]
      exact safe.ring.slack_adopt enabled adopts
    · obtain rfl := Option.some.inj (ran.symm.trans same)
      exact ⟨rfl, Or.inl ⟨rfl, idle⟩⟩
  | notify p =>
    rcases safe.notify_effect enabled with ⟨announces, same⟩ | ⟨idle, same⟩
    · obtain rfl := Option.some.inj (ran.symm.trans same)
      have announced : (net.set (net.pointers.next p) { net.state (net.pointers.next p) with
          prenode := some (nodeAt translate p) }).pointers = net.pointers.announce p := by
        rw [pointers_set]
        exact congrArg (Pointers.mk _ · _)
          (Function.update_eq_self (net.pointers.next p) net.pointers.next)
      refine ⟨rfl, Or.inr ⟨fun still => (still p enabled).2 announces, ?_⟩⟩
      rw [announced]
      exact safe.ring.slack_announce ringKey_lt enabled announces
    · obtain rfl := Option.some.inj (ran.symm.trans same)
      exact ⟨rfl, Or.inl ⟨rfl, idle⟩⟩
  | heartBeat p =>
    rcases safe.heartBeat_effect enabled with ⟨q, -, same⟩ | ⟨-, same⟩
    · obtain rfl := Option.some.inj (ran.symm.trans same)
      refine ⟨rfl, Or.inl ⟨?_, trivial⟩⟩
      rw [pointers_set]
      exact congrArg₂ (Pointers.mk _) (Function.update_eq_self q net.pointers.next)
        (Function.update_eq_self q net.pointers.prev)
    · obtain rfl := Option.some.inj (ran.symm.trans same)
      exact ⟨rfl, Or.inl ⟨rfl, trivial⟩⟩
  | fixFingers p i answer =>
    obtain rfl := Option.some.inj ran
    refine ⟨rfl, Or.inl ⟨?_, trivial⟩⟩
    rw [Chord.fixFingers, pointers_set]
    exact congrArg₂ (Pointers.mk _) (Function.update_eq_self p net.pointers.next)
      (Function.update_eq_self p net.pointers.prev)

/-- A move is a join or none. -/
theorem Move.stays_or_join (move : Move) :
    move.Stays ∨ ∃ garbage n m answer, move = .join garbage n m answer := by
  cases move with
  | join garbage n m answer => exact Or.inr ⟨garbage, n, m, answer, rfl⟩
  | _ => exact Or.inl trivial

/-- What is enabled depends on the live nodes only. -/
theorem Move.Enabled.of_members {other : Network} (enabled : move.Enabled translate net)
    (same : other.members = net.members) : move.Enabled translate other := by
  cases move <;> simp only [Enabled, same] at * <;> exact enabled

/-! ## Executions -/

section

variable (translate)

/-- Moves without end, from any network that a first node can lead to. -/
structure IsExecution (run : ℕ → Network) (moves : ℕ → Move) : Prop where
  /-- The start. -/
  start : Reachable translate (run 0)
  /-- Every move is possible. -/
  enabled : ∀ k, (moves k).Enabled translate (run k)
  /-- Every move is made. -/
  ran : ∀ k, (moves k).run translate (run k) = some (run (k + 1))

/-- Every live node makes each of its moves again and again. -/
structure IsFair (run : ℕ → Network) (moves : ℕ → Move) : Prop where
  /-- `stabilize`. -/
  stabilizes : ∀ k, ∀ p ∈ (run k).members, ∃ᶠ j in atTop, moves j = .stabilize p
  /-- `notify`. -/
  notifies : ∀ k, ∀ p ∈ (run k).members, ∃ᶠ j in atTop, moves j = .notify p
  /-- `heartBeat`. -/
  heartBeats : ∀ k, ∀ p ∈ (run k).members, ∃ᶠ j in atTop, moves j = .heartBeat p

/-- A lookup that asks node after node, each one at a later time than the one before: the node asked
first, at which time, the answer, and the time of the answer. -/
inductive LooksThrough (run : ℕ → Network) (hash : UInt32) : ℕ → ℕ → ℕ → ℕ → Prop
  /-- The node answers. -/
  | answer {j k p answer : ℕ} (before : j ≤ k) (ends : Answers (run j) hash p answer) :
    LooksThrough run hash j p answer k
  /-- The node forwards the lookup, which a live node receives. -/
  | forward {j j' k p f answer : ℕ} (before : j ≤ j') (next : Forwards (run j) hash p f)
    (live : f ∈ (run j').members) (rest : LooksThrough run hash j' f answer k) :
    LooksThrough run hash j p answer k

/-- Every row of a finger table is refilled again and again, with what a lookup of its start
answers. Every lookup ends, so whatever the time, from some later one on lookups have begun after
it. -/
structure RefreshesFingers (run : ℕ → Network) (moves : ℕ → Move) : Prop where
  /-- The rows. -/
  refills : ∀ k, ∀ p ∈ (run k).members, ∀ i, ∃ᶠ j in atTop, ∃ answer,
    moves j = .fixFingers p i answer
  /-- The lookups. -/
  looked : ∀ start, ∀ᶠ k in atTop, ∀ p i answer, moves k = .fixFingers p i answer →
    ∃ j ≥ start, LooksThrough run (portNeededFor ((run j).state p) i) j p answer k

end

variable {run : ℕ → Network} {moves : ℕ → Move}

/-- Every network of an execution is reachable. -/
theorem IsExecution.reachable (execution : IsExecution translate run moves) (k : ℕ) :
    Reachable translate (run k) := by
  induction k with
  | zero => exact execution.start
  | succ k ih => exact ih.step (Move.step (execution.enabled k) (execution.ran k))

/-- Every network of an execution is safe. -/
theorem IsExecution.safe (execution : IsExecution translate run moves) (k : ℕ) :
    (run k).IsSafe translate := (execution.reachable k).safe

end TinyTools.Chord
