import TinyTools.Chord.Neighbours
import TinyTools.Chord.Repair

/-!
# A ring without two neighbours

When two neighbours crash at once, the node in front of them still knows both. Whenever it connects
to its successor it comes one step further: it points at the second one, and then at itself. All
others go on knowing their neighbours, whatever the survivors exchange.
-/

namespace TinyTools.Chord

open TinyTools.Lib

variable {translate : ℕ → UInt32} {net : Network} {survivors : Finset ℕ} {f g a c p q : ℕ}

/-- The nodes left behind when two neighbours crash, two or more. -/
structure IsBreach (translate : ℕ → UInt32) (survivors : Finset ℕ) (f g a c : ℕ) : Prop
    extends IsGap translate survivors f a c where
  /-- The second crashed node had a port, too. -/
  port' : IsPort g
  /-- It does not live either. -/
  crashed' : g ∉ survivors
  /-- The node behind the breach is another one. -/
  apart : c ≠ a

/-- How far the node in front of the breach has come. -/
inductive Isolation
  /-- It points at the first crashed node. -/
  | first
  /-- It points at the second one, and takes itself for the next. -/
  | second
  /-- It points at itself. -/
  | alone

/-- What an exchange makes of it. -/
def Isolation.after (a : ℕ) (stage : Isolation) : Action → Isolation
  | .stabilize p | .notify p =>
    if p = a then (match stage with | .first => .second | .second | .alone => .alone) else stage
  | .heartBeat _ => stage

/-- The connections that brought it there. -/
def Isolation.connections : Isolation → ℕ
  | .first => 0
  | .second => 1
  | .alone => 2

/-- The pointers of the node in front of the breach. -/
def Isolation.Holds (translate : ℕ → UInt32) (survivors : Finset ℕ) (f g a : ℕ) (s : NodeState) :
    Isolation → Prop
  | .first => s.postnode = nodeAt translate f ∧ s.postnode2 = nodeAt translate g ∧
      ∃ p ∈ survivors, Precedes translate survivors p a ∧ s.prenode = some (nodeAt translate p)
  | .second => s.postnode = nodeAt translate g ∧ s.postnode2 = nodeAt translate a ∧
      ∃ p ∈ survivors, Precedes translate survivors p a ∧ s.prenode = some (nodeAt translate p)
  | .alone => s.postnode = nodeAt translate a ∧ ∀ r, s.prenode = some r →
      ∃ p ∈ survivors, (p = a ∨ Precedes translate survivors p a) ∧ r = nodeAt translate p

/-- The survivors of two crashes: away from the breach everyone knows its neighbours. -/
structure Network.IsSplit (translate : ℕ → UInt32) (survivors : Finset ℕ) (f g a c : ℕ)
    (stage : Isolation) (net : Network) : Prop where
  /-- Nobody else lives. -/
  members : net.members = survivors
  /-- A node knows itself. -/
  self : ∀ p ∈ survivors, (net.state p).localNode = nodeAt translate p
  /-- Every successor but the one in front of the breach. -/
  postnode : ∀ p ∈ survivors, p ≠ a → ∃ q, Precedes translate survivors p q ∧
    (net.state p).postnode = nodeAt translate q
  /-- Every predecessor but those at the breach. -/
  prenode : ∀ q ∈ survivors, q ≠ a → q ≠ c → ∃ p ∈ survivors, Precedes translate survivors p q ∧
    (net.state q).prenode = some (nodeAt translate p)
  /-- Behind the breach nobody live is known. -/
  behind : ∀ r, (net.state c).prenode = some r → r = nodeAt translate g
  /-- The pointers in front of the breach. -/
  front : stage.Holds translate survivors f g a (net.state a)

/-! ## Exchanges -/

variable {stage : Isolation}

/-- A node whose successor knows it, itself or nobody stabilises without a change. -/
theorem stabilize_told (self : (net.state p).localNode = nodeAt translate p) (port : IsPort p)
    (post : (net.state p).postnode = nodeAt translate q) (port' : IsPort q)
    (live : q ∈ net.members) (told : ∀ r, (net.state q).prenode = some r →
      r = nodeAt translate p ∨ r = nodeAt translate q ∧ ringKey translate p ≠ ringKey translate q) :
    stabilize translate net p = some net := by
  have here : (net.state p).postnode.port = q := by rw [post]; rfl
  have fits : (net.state p).localNode.port < 2 ^ 16 := by
    rw [self]
    exact port.2
  have unchanged : stabilizeReply translate (net.state p) (stableReply (net.state q)) =
      net.state p := by
    rcases stabilizeReply_cases translate (net.state p) (stableReply (net.state q)) with
      same | ⟨-, positive, inside⟩
    · exact same
    · exfalso
      unfold stableReply at positive inside
      cases known : (net.state q).prenode with
      | none =>
        rw [known] at positive
        exact absurd positive (by decide)
      | some r =>
        rw [known, self, post] at inside
        dsimp only at inside
        rcases told r known with rfl | ⟨rfl, apart⟩
        · have read : readPort (decimal (nodeAt translate p).port) = p := readPort_decimal port.2
          rw [read] at inside
          exact inside.1 rfl
        · have read : readPort (decimal (nodeAt translate q).port) = q := readPort_decimal port'.2
          have whole := inside.2
          rw [read] at whole
          change clockwise ringSize (ringKey translate p) (ringKey translate q) <
            around ringSize (ringKey translate p) (ringKey translate q) at whole
          rw [around_of_ne apart] at whole
          exact lt_irrefl _ whole
  rw [stabilize_live (here ▸ live) fits, here, unchanged, Network.set_same]

/-- A node that is its own successor stabilises without a change. -/
theorem stabilize_alone (self : (net.state p).localNode = nodeAt translate p) (port : IsPort p)
    (post : (net.state p).postnode = nodeAt translate p) (live : p ∈ net.members) :
    stabilize translate net p = some net := by
  have here : (net.state p).postnode.port = p := by rw [post]; rfl
  have fits : (net.state p).localNode.port < 2 ^ 16 := by
    rw [self]
    exact port.2
  have alone : (net.state p).postnode.key = (net.state p).localNode.key := by rw [post, self]
  have reached : (net.state p).postnode.port ∈ net.members := by rwa [here]
  rw [stabilize_live reached fits, stabilizeReply_alone alone, Network.set_same]

/-- When both successors have crashed, the exchange ends after the takeover. -/
theorem exchange_cut (dead : (net.state p).postnode.port ∉ net.members)
    (dead' : (net.state p).postnode2.port ∉ net.members) :
    stabilize translate net p = some (net.set p (takeOver translate (net.state p))) ∧
      notify translate net p = some (net.set p (takeOver translate (net.state p))) := by
  have dead'' : (net.state p).postnode2.port ∉
      (net.set p (takeOver translate (net.state p))).members := dead'
  have reached : connectPostnode translate net p =
      some (net.set p (takeOver translate (net.state p)), false) := by
    rw [connectPostnode_dead dead, resetPreNode_eq, if_neg dead'', Option.map_some,
      decide_eq_false dead']
  constructor
  · simp [stabilize, reached]
  · simp [notify, reached]

/-- Nodes may change in what does not point away from the breach. -/
theorem Network.IsSplit.congr {net' : Network} {stage' : Isolation}
    (at_ : net.IsSplit translate survivors f g a c stage) (members : net'.members = net.members)
    (self : ∀ x, (net'.state x).localNode = (net.state x).localNode)
    (postnode : ∀ x, x ≠ a → (net'.state x).postnode = (net.state x).postnode)
    (prenode : ∀ x, x ≠ a → x ≠ c → (net'.state x).prenode = (net.state x).prenode)
    (behind : ∀ r, (net'.state c).prenode = some r → r = nodeAt translate g)
    (front : stage'.Holds translate survivors f g a (net'.state a)) :
    net'.IsSplit translate survivors f g a c stage' where
  members := members.trans at_.members
  self x live := (self x).trans (at_.self x live)
  postnode x live away := by
    rw [postnode x away]
    exact at_.postnode x live away
  prenode x live away away' := by
    rw [prenode x away away']
    exact at_.prenode x live away away'
  behind := behind
  front := front

/-- One node of a split network may change in what does not point away from the breach. -/
theorem Network.IsSplit.set {s : NodeState} {stage' : Isolation}
    (at_ : net.IsSplit translate survivors f g a c stage)
    (self : s.localNode = (net.state p).localNode)
    (postnode : p ≠ a → s.postnode = (net.state p).postnode)
    (prenode : p ≠ a → p ≠ c → s.prenode = (net.state p).prenode)
    (behind : p = c → ∀ r, s.prenode = some r → r = nodeAt translate g)
    (front : stage'.Holds translate survivors f g a (if a = p then s else net.state a)) :
    (net.set p s).IsSplit translate survivors f g a c stage' := by
  refine at_.congr rfl (fun x => ?_) (fun x away => ?_) (fun x away away' => ?_) (fun r => ?_) ?_
  · rw [set_state]
    split_ifs with here
    · rw [here]
      exact self
    · rfl
  · rw [set_state]
    split_ifs with here
    · rw [here]
      exact postnode (here ▸ away)
    · rfl
  · rw [set_state]
    split_ifs with here
    · rw [here]
      exact prenode (here ▸ away) (here ▸ away')
    · rfl
  · rw [set_state]
    split_ifs with here
    · exact behind here.symm r
    · exact at_.behind r
  · rw [set_state]
    exact front

/-- The node in front of the breach may change in anything but itself. -/
theorem Network.IsSplit.setFront {s : NodeState} {stage' : Isolation}
    (at_ : net.IsSplit translate survivors f g a c stage) (apart : c ≠ a)
    (self : s.localNode = (net.state a).localNode)
    (front : stage'.Holds translate survivors f g a s) :
    (net.set a s).IsSplit translate survivors f g a c stage' := by
  apply at_.set self (absurd rfl) (absurd rfl) (fun same => absurd same.symm apart)
  rw [if_pos rfl]
  exact front

/-- In front of the breach only the predecessor and the node itself are known. -/
theorem Isolation.Holds.prenode {s : NodeState} (front : stage.Holds translate survivors f g a s)
    {r : Node} (known : s.prenode = some r) :
    ∃ p ∈ survivors, (p = a ∨ Precedes translate survivors p a) ∧ r = nodeAt translate p := by
  cases stage with
  | first =>
    obtain ⟨-, -, p, live, before, known'⟩ := front
    exact ⟨p, live, Or.inr before, Option.some.inj (known.symm.trans known')⟩
  | second =>
    obtain ⟨-, -, p, live, before, known'⟩ := front
    exact ⟨p, live, Or.inr before, Option.some.inj (known.symm.trans known')⟩
  | alone => exact front.2 r known

/-- The predecessor announces itself in front of the breach. -/
theorem Isolation.Holds.told {s : NodeState} (front : stage.Holds translate survivors f g a s)
    (live : p ∈ survivors) (before : Precedes translate survivors p a) :
    stage.Holds translate survivors f g a { s with prenode := some (nodeAt translate p) } := by
  cases stage with
  | first => exact ⟨front.1, front.2.1, p, live, before, rfl⟩
  | second => exact ⟨front.1, front.2.1, p, live, before, rfl⟩
  | alone =>
    exact ⟨front.1, fun r known => ⟨p, live, Or.inr before, (Option.some.inj known).symm⟩⟩

/-- Away from the breach, the successor knows the node, itself or nobody, and does not lie behind
the breach. -/
theorem Network.IsSplit.linked (breach : IsBreach translate survivors f g a c)
    (at_ : net.IsSplit translate survivors f g a c stage) (live : p ∈ survivors) (away : p ≠ a) :
    ∃ q ∈ survivors, q ≠ c ∧ Precedes translate survivors p q ∧
      (net.state p).postnode = nodeAt translate q ∧
        ∀ r, (net.state q).prenode = some r →
          r = nodeAt translate p ∨ r = nodeAt translate q ∧ q = a := by
  obtain ⟨q, next, post⟩ := at_.postnode p live away
  have behind : q ≠ c := by
    intro same
    rw [same] at next
    exact away (next.start_unique breach.distinct live breach.front breach.across)
  refine ⟨q, next.1, behind, next, post, fun r known => ?_⟩
  by_cases front : q = a
  · rw [front] at known next ⊢
    obtain ⟨p', live', same | before, rfl⟩ := at_.front.prenode known
    · rw [same]
      exact Or.inr ⟨rfl, rfl⟩
    · rw [before.start_unique breach.distinct live' live next]
      exact Or.inl rfl
  · obtain ⟨p', live', before, known'⟩ := at_.prenode q next.1 front behind
    rw [before.start_unique breach.distinct live' live next] at known'
    exact Or.inl (Option.some.inj (known.symm.trans known'))

/-- A node that takes itself for its successor forgets everyone. -/
theorem Network.IsSplit.failover (at_ : net.IsSplit translate survivors f g a c .second)
    (apart : c ≠ a) : (net.failover translate a).IsSplit translate survivors f g a c .alone ∧
      ((net.failover translate a).state a).prenode = none := by
  have second : (net.state a).postnode2.port = a := by rw [at_.front.2.1]; rfl
  have again : net.failover translate a =
      net.set a (dropPrenode (takeOver translate (net.state a))) := by
    rw [Network.failover, second, set_state_self, Network.set, Network.set, Network.set]
    exact congrArg (fun state => { net with state := state }) (Function.update_idem ..)
  have post : (dropPrenode (takeOver translate (net.state a))).postnode = nodeAt translate a :=
    congrArg (nodeAt translate) second
  rw [again]
  constructor
  · apply at_.setFront apart
    · rfl
    · exact ⟨post, fun r known => by cases known⟩
  · rw [set_state_self]
    rfl

/-- While the breach is open, both successors of the node in front of it are dead. -/
theorem Network.IsSplit.cut (breach : IsBreach translate survivors f g a c)
    (at_ : net.IsSplit translate survivors f g a c .first) :
    ∃ net', stabilize translate net a = some net' ∧ notify translate net a = some net' ∧
      net'.IsSplit translate survivors f g a c .second := by
  obtain ⟨post, post2, p, live, before, known⟩ := at_.front
  have dead : (net.state a).postnode.port ∉ net.members := by
    rw [post, at_.members]
    exact breach.crashed
  have dead' : (net.state a).postnode2.port ∉ net.members := by
    rw [post2, at_.members]
    exact breach.crashed'
  have ended := @exchange_cut translate _ _ dead dead'
  refine ⟨_, ended.1, ended.2, ?_⟩
  have second : (takeOver translate (net.state a)).postnode = nodeAt translate g :=
    congrArg (fun r : Node => nodeAt translate r.port) post2
  have third : (takeOver translate (net.state a)).postnode2 = nodeAt translate a :=
    congrArg (fun r : Node => nodeAt translate r.port) (at_.self a breach.front)
  apply at_.setFront breach.apart
  · rfl
  · exact ⟨second, third, p, live, before, known⟩

/-- A node that is its own successor notifies itself. -/
theorem Network.IsSplit.notify_alone (breach : IsBreach translate survivors f g a c)
    (at_ : net.IsSplit translate survivors f g a c .alone) :
    ∃ net', Chord.notify translate net a = some net' ∧
      net'.IsSplit translate survivors f g a c .alone := by
  have live := breach.front
  obtain ⟨post, known⟩ := at_.front
  have here : (net.state a).postnode.port = a := by rw [post]; rfl
  have self := at_.self a live
  have fits : (net.state a).localNode.port < 2 ^ 16 := by
    rw [self]
    exact (breach.ports a live).2
  have reached : (net.state a).postnode.port ∈ net.members := by rwa [here, at_.members]
  refine ⟨_, notify_live reached fits, ?_⟩
  rw [here, self]
  rcases handleNotify_cases translate (net.state a) (nodeAt translate a).port with same | told
  · rw [same, Network.set_same]
    exact at_
  · rw [told]
    apply at_.setFront breach.apart
    · rfl
    · exact ⟨post, fun r known => ⟨a, live, Or.inl rfl, (Option.some.inj known).symm⟩⟩

/-- Any survivor stabilises. -/
theorem Network.IsSplit.stabilize (breach : IsBreach translate survivors f g a c)
    (at_ : net.IsSplit translate survivors f g a c stage) (live : p ∈ survivors) :
    ∃ net', Chord.stabilize translate net p = some net' ∧
      net'.IsSplit translate survivors f g a c (stage.after a (.stabilize p)) := by
  have self := at_.self p live
  have port := breach.ports p live
  by_cases front : p = a
  · simp only [Isolation.after, if_pos front]
    rw [front] at self port ⊢
    cases stage with
    | first =>
      obtain ⟨net', ran, -, split⟩ := at_.cut breach
      exact ⟨net', ran, split⟩
    | second =>
      obtain ⟨post, second, -⟩ := at_.front
      have dead : (net.state a).postnode.port ∉ net.members := by
        rw [post, at_.members]
        exact breach.crashed'
      have next : (net.state a).postnode2.port ∈ net.members := by
        rw [second, at_.members]
        exact breach.front
      have split := (at_.failover breach.apart).1
      have same := stabilize_alone (split.self a breach.front) port split.front.1
        (split.members ▸ breach.front)
      exact ⟨_, (stabilize_failover dead next).trans same, split⟩
    | alone =>
      have same := stabilize_alone self port at_.front.1 (at_.members ▸ breach.front)
      exact ⟨net, same, at_⟩
  · obtain ⟨q, live', -, next, post, told⟩ := at_.linked breach live front
    have apart : q = a → ringKey translate p ≠ ringKey translate q := by
      intro same equal
      exact front ((breach.distinct live live' equal).trans same)
    have same := stabilize_told self port post (breach.ports q live') (at_.members ▸ live')
      fun r known => (told r known).imp_right fun ⟨same, equal⟩ => ⟨same, apart equal⟩
    refine ⟨net, same, ?_⟩
    simpa only [Isolation.after, if_neg front] using at_

/-- Any survivor notifies its successor. -/
theorem Network.IsSplit.notify (breach : IsBreach translate survivors f g a c)
    (at_ : net.IsSplit translate survivors f g a c stage) (live : p ∈ survivors) :
    ∃ net', Chord.notify translate net p = some net' ∧
      net'.IsSplit translate survivors f g a c (stage.after a (.notify p)) := by
  have self := at_.self p live
  have port := breach.ports p live
  by_cases front : p = a
  · simp only [Isolation.after, if_pos front]
    rw [front]
    cases stage with
    | first =>
      obtain ⟨net', -, ran, split⟩ := at_.cut breach
      exact ⟨net', ran, split⟩
    | second =>
      obtain ⟨post, second, -⟩ := at_.front
      have dead : (net.state a).postnode.port ∉ net.members := by
        rw [post, at_.members]
        exact breach.crashed'
      have next : (net.state a).postnode2.port ∈ net.members := by
        rw [second, at_.members]
        exact breach.front
      rw [notify_failover dead next]
      exact (at_.failover breach.apart).1.notify_alone breach
    | alone => exact at_.notify_alone breach
  · obtain ⟨q, live', behind, next, post, told⟩ := at_.linked breach live front
    have here : (net.state p).postnode.port = q := by rw [post]; rfl
    have fits : (net.state p).localNode.port < 2 ^ 16 := by
      rw [self]
      exact port.2
    have reached : (net.state p).postnode.port ∈ net.members := by rwa [here, at_.members]
    refine ⟨_, notify_live reached fits, ?_⟩
    rw [here, self]
    simp only [Isolation.after, if_neg front]
    rcases handleNotify_cases translate (net.state q) (nodeAt translate p).port with same | heard
    · rw [same, Network.set_same]
      exact at_
    · rw [heard]
      apply at_.set
      · rfl
      · exact fun _ => rfl
      · intro away away'
        obtain ⟨p', inside, before, known⟩ := at_.prenode q live' away away'
        rw [known, before.start_unique breach.distinct inside live next]
        rfl
      · exact fun same => absurd same behind
      · by_cases here' : a = q
        · rw [if_pos here', ← here']
          exact at_.front.told live (here' ▸ next)
        · rw [if_neg here']
          exact at_.front

/-- Survivors know their successors by ports of the machine. -/
theorem Network.IsSplit.isPort (breach : IsBreach translate survivors f g a c)
    (at_ : net.IsSplit translate survivors f g a c stage) (live : p ∈ survivors) :
    IsPort (net.state p).postnode.port := by
  by_cases front : p = a
  · have known := at_.front
    rw [front]
    cases stage with
    | first =>
      rw [known.1]
      exact breach.port
    | second =>
      rw [known.1]
      exact breach.port'
    | alone =>
      rw [known.1]
      exact breach.ports a breach.front
  · obtain ⟨q, next, post⟩ := at_.postnode p live front
    rw [post]
    exact breach.ports q next.1

/-- Anywhere but behind the breach, survivors know live predecessors. -/
theorem Network.IsSplit.knows_live
    (at_ : net.IsSplit translate survivors f g a c stage) (live : p ∈ survivors) (away : p ≠ c)
    {r : Node} (known : (net.state p).prenode = some r) :
    ∃ q ∈ survivors, r.port = q ∧ (p ≠ a → Precedes translate survivors q p) := by
  by_cases front : p = a
  · rw [front] at known
    obtain ⟨q, live', -, rfl⟩ := at_.front.prenode known
    exact ⟨q, live', rfl, fun other => absurd front other⟩
  · obtain ⟨q, live', before, known'⟩ := at_.prenode p live front away
    rw [known] at known'
    rw [Option.some.inj known']
    exact ⟨q, live', rfl, fun _ => before⟩

/-- Before the node in front of the breach is alone, no heartbeat reaches it. -/
theorem Network.IsSplit.unreached (breach : IsBreach translate survivors f g a c)
    (at_ : net.IsSplit translate survivors f g a c stage) (live : p ∈ survivors)
    (away : p ≠ c) {r : Node} (known : (net.state p).prenode = some r)
    (before : p = a → ∃ q ∈ survivors, Precedes translate survivors q a ∧
      (net.state a).prenode = some (nodeAt translate q)) : r.port ≠ a := by
  intro here
  obtain ⟨q, -, same, next⟩ := at_.knows_live live away known
  rw [here] at same
  by_cases front : p = a
  · obtain ⟨q', -, next', known'⟩ := before front
    rw [front, known'] at known
    have itself : q' = a := by
      rw [← here, ← Option.some.inj known]
      rfl
    rw [itself] at next'
    exact breach.apart (breach.across.unique breach.distinct next')
  · have next' := next front
    rw [← same] at next'
    exact away (next'.unique breach.distinct breach.across)

/-- Any survivor sends its heartbeat. -/
theorem Network.IsSplit.heartBeat (breach : IsBreach translate survivors f g a c)
    (at_ : net.IsSplit translate survivors f g a c stage) (live : p ∈ survivors) :
    ∃ net', Chord.heartBeat translate net p = some net' ∧
      net'.IsSplit translate survivors f g a c stage := by
  cases known : (net.state p).prenode with
  | none => exact ⟨net, by simp only [Chord.heartBeat, known], at_⟩
  | some r =>
    by_cases reached : r.port ∈ net.members
    · have away : p ≠ c := by
        intro behind
        rw [behind] at known
        rw [at_.behind r known, at_.members] at reached
        exact breach.crashed' reached
      refine ⟨_, heartBeat_live known reached (at_.isPort breach live).2, ?_⟩
      apply at_.set
      · rfl
      · exact fun _ => rfl
      · exact fun _ _ => rfl
      · intro behind s known'
        exact at_.behind s (behind ▸ known')
      · by_cases here : a = r.port
        · have front := at_.front
          cases stage with
          | first =>
            exact absurd here.symm (at_.unreached breach live away known fun _ => front.2.2)
          | second =>
            exact absurd here.symm (at_.unreached breach live away known fun _ => front.2.2)
          | alone =>
            rw [if_pos here, ← here]
            exact front
        · rw [if_neg here]
          exact at_.front
    · have behind : p = c := by
        by_contra away
        obtain ⟨q, live', same, -⟩ := at_.knows_live live away known
        rw [same, at_.members] at reached
        exact reached live'
      refine ⟨_, heartBeat_dead known reached, ?_⟩
      apply at_.set
      · rfl
      · exact fun _ => rfl
      · exact fun _ away => absurd behind away
      · intro _ s none
        cases none
      · rw [if_neg fun here => breach.apart (behind ▸ here.symm)]
        exact at_.front

/-- Any exchanges of survivors end, in any order, and the breach stays. -/
theorem Network.IsSplit.actions (breach : IsBreach translate survivors f g a c)
    (actions : List Action) (at_ : net.IsSplit translate survivors f g a c stage)
    (live : ∀ action ∈ actions, action.node ∈ survivors) :
    ∃ net', runActions translate actions net = some net' ∧
      net'.IsSplit translate survivors f g a c (actions.foldl (Isolation.after a) stage) := by
  induction actions generalizing net stage with
  | nil => exact ⟨net, rfl, at_⟩
  | cons action rest ih =>
    have first : ∃ net', action.run translate net = some net' ∧
        net'.IsSplit translate survivors f g a c (stage.after a action) := by
      have inside := live action List.mem_cons_self
      cases action with
      | stabilize p => exact at_.stabilize breach inside
      | notify p => exact at_.notify breach inside
      | heartBeat p => exact at_.heartBeat breach inside
    obtain ⟨next, ran, at'⟩ := first
    obtain ⟨net', ran', final⟩ :=
      ih at' fun later inside => live later (List.mem_cons_of_mem _ inside)
    refine ⟨net', ?_, final⟩
    rw [runActions, List.foldlM_cons, ran]
    exact ran'

end TinyTools.Chord
