import TinyTools.Chord.Exchanges
import TinyTools.Chord.Ring
import TinyTools.Chord.StaleFingers

/-!
# Repair after a crash

One node of a ring crashes. Its predecessor takes its own second successor over, that node forgets
the crashed one, and the next notification closes the ring. How far the repair has come is decided
by what the predecessor of the crashed node has done; every other exchange of the survivors changes
nothing that counts, whenever it takes place.
-/

namespace TinyTools.Chord

open TinyTools.Lib

variable (translate : ℕ → UInt32)

/-- One node comes right before another one on the ring of some nodes. -/
def Precedes (nodes : Finset ℕ) (p q : ℕ) : Prop :=
  IsNext ringSize (ringKey translate) nodes (ringKey translate p) q

instance (nodes : Finset ℕ) (p q : ℕ) : Decidable (Precedes translate nodes p q) :=
  inferInstanceAs (Decidable (_ ∧ _))

/-- A node knows its two neighbours on the ring of some nodes. -/
def KnowsNeighbours (nodes : Finset ℕ) (p : ℕ) (s : NodeState) : Prop :=
  (∃ q, Precedes translate nodes p q ∧ s.postnode = nodeAt translate q) ∧
    ∃ q ∈ nodes, Precedes translate nodes q p ∧ s.prenode = some (nodeAt translate q)

/-- A ring whose nodes know their neighbours and their second successors. -/
structure IsCircle (net : Network) : Prop where
  /-- Ports are those of the machine. -/
  ports : ∀ p ∈ net.members, IsPort p
  /-- No two nodes share a key. -/
  distinct : Set.InjOn (ringKey translate) net.members
  /-- A node knows itself. -/
  self : ∀ p ∈ net.members, (net.state p).localNode = nodeAt translate p
  /-- The neighbours. -/
  neighbours : ∀ p ∈ net.members, KnowsNeighbours translate net.members p (net.state p)
  /-- The second successors. -/
  postnode2 : ∀ p ∈ net.members, ∃ q r, Precedes translate net.members p q ∧
    Precedes translate net.members q r ∧ (net.state p).postnode2 = nodeAt translate r

/-- A node crashes. -/
def Network.crash (net : Network) (f : ℕ) : Network := { net with members := net.members.erase f }

/-! ## What survivors do -/

/-- An exchange that a node starts. -/
inductive Action
  /-- `stabilize`. -/
  | stabilize (p : ℕ)
  /-- `notify`. -/
  | notify (p : ℕ)
  /-- `heartBeat`. -/
  | heartBeat (p : ℕ)
deriving DecidableEq

/-- The node that starts the exchange. -/
def Action.node : Action → ℕ
  | .stabilize p | .notify p | .heartBeat p => p

/-- The exchange itself. -/
def Action.run (net : Network) : Action → Option Network
  | .stabilize p => Chord.stabilize translate net p
  | .notify p => Chord.notify translate net p
  | .heartBeat p => Chord.heartBeat translate net p

/-- One exchange after another. -/
def runActions (actions : List Action) (net : Network) : Option Network :=
  actions.foldlM (Action.run translate) net

/-! ## How far the repair has come -/

/-- The nodes left behind by a crash: the node in front of the crashed one, and the one behind. -/
structure IsGap (survivors : Finset ℕ) (f a b : ℕ) : Prop where
  /-- Ports are those of the machine. -/
  ports : ∀ p ∈ survivors, IsPort p
  /-- The crashed node had a port, too. -/
  port : IsPort f
  /-- No two survivors share a key. -/
  distinct : Set.InjOn (ringKey translate) survivors
  /-- The crashed node is none of them. -/
  crashed : f ∉ survivors
  /-- The node in front of the gap lives. -/
  front : a ∈ survivors
  /-- Without the crashed node it comes right before the one behind the gap. -/
  across : Precedes translate survivors a b

/-- The stages of the repair. -/
inductive Stage
  /-- The node in front of the gap still points at the crashed node. -/
  | broken
  /-- It has let its second successor take over, which has forgotten its predecessor. -/
  | reset
  /-- The node behind the gap knows its new predecessor. -/
  | closed

/-- What an exchange makes of the stage, when the node in front of the gap is given. -/
def Stage.after (a : ℕ) (stage : Stage) : Action → Stage
  | .stabilize p => if p = a then (match stage with | .broken => .reset | other => other) else stage
  | .notify p => if p = a then .closed else stage
  | .heartBeat _ => stage

/-- The pointers across the gap. -/
def Stage.Holds (f a b : ℕ) (net : Network) : Stage → Prop
  | .broken => (net.state a).postnode = nodeAt translate f ∧
      (net.state a).postnode2 = nodeAt translate b ∧
        ∀ r, (net.state b).prenode = some r → r = nodeAt translate f
  | .reset => (net.state a).postnode = nodeAt translate b ∧ (net.state b).prenode = none
  | .closed => (net.state a).postnode = nodeAt translate b ∧
      (net.state b).prenode = some (nodeAt translate a)

/-- The survivors at a stage of the repair: away from the gap everyone knows its neighbours. -/
structure Network.IsAt (survivors : Finset ℕ) (f a b : ℕ) (stage : Stage) (net : Network) :
    Prop where
  /-- Nobody else lives. -/
  members : net.members = survivors
  /-- A node knows itself. -/
  self : ∀ p ∈ survivors, (net.state p).localNode = nodeAt translate p
  /-- Every successor but the one across the gap. -/
  postnode : ∀ p ∈ survivors, p ≠ a → ∃ q, Precedes translate survivors p q ∧
    (net.state p).postnode = nodeAt translate q
  /-- Every predecessor but the one across the gap. -/
  prenode : ∀ q ∈ survivors, q ≠ b → ∃ p ∈ survivors, Precedes translate survivors p q ∧
    (net.state q).prenode = some (nodeAt translate p)
  /-- The pointers across the gap. -/
  gap : stage.Holds translate f a b net

variable {translate} {net : Network} {survivors : Finset ℕ} {f a b p q : ℕ} {stage : Stage}

/-! ## One exchange -/

/-- A node whose successor knows it, or knows nobody, stabilises without a change. -/
theorem stabilize_same (self : (net.state p).localNode = nodeAt translate p) (port : IsPort p)
    (post : (net.state p).postnode = nodeAt translate q) (live : q ∈ net.members)
    (known : (net.state q).prenode = none ∨ (net.state q).prenode = some (nodeAt translate p)) :
    stabilize translate net p = some net := by
  have here : (net.state p).postnode.port = q := by rw [post]; rfl
  have fits : (net.state p).localNode.port < 2 ^ 16 := by
    rw [self]
    exact port.2
  have unchanged : stabilizeReply translate (net.state p) (stableReply (net.state q)) =
      net.state p := by
    unfold stabilizeReply stableReply
    rcases known with none | some
    · rw [none]
      exact if_neg (by decide)
    · have read : readPort (decimal (nodeAt translate p).port) = p := readPort_decimal port.2
      rw [some]
      dsimp only
      rw [read, self, if_pos port.1, if_neg, if_neg]
      · rintro ⟨-, other, -⟩
        exact other rfl
      · rintro ⟨-, less, -⟩
        exact absurd less (UInt32.lt_irrefl _)
  rw [stabilize_live (here ▸ live) fits, here, unchanged, Network.set_same]

/-- A node notifies a successor that knows it without a change. -/
theorem notify_same (self : (net.state p).localNode = nodeAt translate p) (port : IsPort p)
    (post : (net.state p).postnode = nodeAt translate q) (live : q ∈ net.members)
    (known : (net.state q).prenode = some (nodeAt translate p)) :
    notify translate net p = some net := by
  have here : (net.state p).postnode.port = q := by rw [post]; rfl
  have fits : (net.state p).localNode.port < 2 ^ 16 := by
    rw [self]
    exact port.2
  have unchanged : handleNotify translate (net.state q) p = net.state q := by
    unfold handleNotify
    rw [known]
    dsimp only [nodeAt]
    rw [if_neg, if_neg]
    · rintro ⟨-, less, -⟩
      exact absurd less (UInt32.lt_irrefl _)
    · rintro ⟨above, less | below⟩
      · exact absurd less (UInt32.lt_irrefl _)
      · exact absurd below (UInt32.lt_asymm above)
  rw [notify_live (here ▸ live) fits, here, self]
  exact congrArg some ((congrArg (net.set q) unchanged).trans (net.set_same q))

/-- A node that knows nobody takes the node that notifies it for its predecessor. -/
theorem notify_fresh (self : (net.state p).localNode = nodeAt translate p) (port : IsPort p)
    (post : (net.state p).postnode = nodeAt translate q) (live : q ∈ net.members)
    (known : (net.state q).prenode = none) :
    notify translate net p =
      some (net.set q { net.state q with prenode := some (nodeAt translate p) }) := by
  have here : (net.state p).postnode.port = q := by rw [post]; rfl
  have fits : (net.state p).localNode.port < 2 ^ 16 := by
    rw [self]
    exact port.2
  have told : handleNotify translate (net.state q) p =
      { net.state q with prenode := some (nodeAt translate p) } := by
    rw [handleNotify, known]
  rw [notify_live (here ▸ live) fits, here, self]
  exact congrArg (some ∘ net.set q) told

/-! ## Neighbours of the survivors -/

/-- A node comes right before one other. -/
theorem Precedes.unique {r : ℕ} (distinct : Set.InjOn (ringKey translate) survivors)
    (next : Precedes translate survivors p q) (next' : Precedes translate survivors p r) : q = r :=
  distinct next.1 next'.1 (next.key_eq (fun x _ => ringKey_lt x) (ringKey_lt p) next')

/-- One node comes right before another. -/
theorem Precedes.start_unique {r : ℕ} (distinct : Set.InjOn (ringKey translate) survivors)
    (start : p ∈ survivors) (start' : r ∈ survivors) (next : Precedes translate survivors p q)
    (next' : Precedes translate survivors r q) : p = r :=
  distinct start start' (next.start_eq (fun x _ => ringKey_lt x) start start' next')

/-- Away from the gap, the successor of a node knows it. -/
theorem Network.IsAt.linked (gap : IsGap translate survivors f a b)
    (at_ : net.IsAt translate survivors f a b stage) (live : p ∈ survivors) (away : p ≠ a) :
    ∃ q, q ∈ net.members ∧ (net.state p).postnode = nodeAt translate q ∧
      (net.state q).prenode = some (nodeAt translate p) := by
  obtain ⟨q, next, post⟩ := at_.postnode p live away
  have behind : q ≠ b := by
    intro same
    rw [same] at next
    exact away (next.start_unique gap.distinct live gap.front gap.across)
  obtain ⟨p', live', next', pre⟩ := at_.prenode q next.1 behind
  rw [next'.start_unique gap.distinct live' live next] at pre
  exact ⟨q, at_.members ▸ next.1, post, pre⟩

/-- Nodes may change in what does not point away from the gap. -/
theorem Network.IsAt.congr {net' : Network} {stage' : Stage}
    (at_ : net.IsAt translate survivors f a b stage) (members : net'.members = net.members)
    (self : ∀ x, (net'.state x).localNode = (net.state x).localNode)
    (postnode : ∀ x, x ≠ a → (net'.state x).postnode = (net.state x).postnode)
    (prenode : ∀ x, x ≠ b → (net'.state x).prenode = (net.state x).prenode)
    (gap : stage'.Holds translate f a b net') : net'.IsAt translate survivors f a b stage' where
  members := members.trans at_.members
  self x live := (self x).trans (at_.self x live)
  postnode x live away := by
    rw [postnode x away]
    exact at_.postnode x live away
  prenode x live behind := by
    rw [prenode x behind]
    exact at_.prenode x live behind
  gap := gap

/-- The successor of the node in front of the gap fails over to the node behind it. -/
theorem Network.IsAt.failover (at_ : net.IsAt translate survivors f a b .broken) :
    (net.failover translate a).IsAt translate survivors f a b .reset := by
  obtain ⟨-, second, -⟩ := at_.gap
  have here : (net.state a).postnode2.port = b := by rw [second]; rfl
  have post := net.failover_postnode translate a
  rw [here] at post
  have states (x : ℕ) : (net.failover translate a).state x =
      if x = b then dropPrenode (if b = a then takeOver translate (net.state a) else net.state b)
      else if x = a then takeOver translate (net.state a) else net.state x := by
    simp only [Network.failover, set_state, here]
  refine at_.congr rfl ?_ ?_ ?_ ?_
  · intro x
    rw [states]
    split_ifs with behind same front
    · rw [behind, same]
      rfl
    · rw [behind]
      rfl
    · rw [front]
      rfl
    · rfl
  · intro x away
    rw [states]
    split_ifs with behind same
    · exact absurd (behind.trans same) away
    · rw [behind]
      rfl
    · rfl
  · intro x other
    rw [states, if_neg other]
    split_ifs with front
    · rw [front]
      rfl
    · rfl
  · refine ⟨post, ?_⟩
    rw [states, if_pos rfl]
    rfl

/-- While the gap is open, the successor in front of it is dead and the second one lives. -/
theorem Network.IsAt.open_gap (gap : IsGap translate survivors f a b)
    (at_ : net.IsAt translate survivors f a b .broken) :
    (net.state a).postnode.port ∉ net.members ∧ (net.state a).postnode2.port ∈ net.members := by
  obtain ⟨post, second, -⟩ := at_.gap
  rw [post, second, at_.members]
  exact ⟨gap.crashed, gap.across.1⟩

/-- In front of the gap, a stabilisation fails over, or changes nothing. -/
theorem Network.IsAt.stabilize_front (gap : IsGap translate survivors f a b)
    (at_ : net.IsAt translate survivors f a b stage) :
    ∃ net', stabilize translate net a = some net' ∧
      net'.IsAt translate survivors f a b (stage.after a (.stabilize a)) := by
  have port := gap.ports a gap.front
  cases stage with
  | broken =>
    have reach := at_.open_gap gap
    have taken := at_.failover
    obtain ⟨post', none⟩ := taken.gap
    have self := taken.self a gap.front
    have same := stabilize_same self port post' (taken.members ▸ gap.across.1) (.inl none)
    refine ⟨net.failover translate a, (stabilize_failover reach.1 reach.2).trans same, ?_⟩
    simpa only [Stage.after, if_true] using taken
  | reset =>
    obtain ⟨post, none⟩ := at_.gap
    have self := at_.self a gap.front
    have same := stabilize_same self port post (at_.members ▸ gap.across.1) (.inl none)
    refine ⟨net, same, ?_⟩
    simpa only [Stage.after, if_true] using at_
  | closed =>
    obtain ⟨post, known⟩ := at_.gap
    have self := at_.self a gap.front
    have same := stabilize_same self port post (at_.members ▸ gap.across.1) (.inr known)
    refine ⟨net, same, ?_⟩
    simpa only [Stage.after, if_true] using at_

/-- Any survivor stabilises. -/
theorem Network.IsAt.stabilize (gap : IsGap translate survivors f a b)
    (at_ : net.IsAt translate survivors f a b stage) (live : p ∈ survivors) :
    ∃ net', Chord.stabilize translate net p = some net' ∧
      net'.IsAt translate survivors f a b (stage.after a (.stabilize p)) := by
  by_cases front : p = a
  · rw [front]
    exact at_.stabilize_front gap
  · obtain ⟨q, next, post, known⟩ := at_.linked gap live front
    have self := at_.self p live
    have same := stabilize_same self (gap.ports p live) post next (.inr known)
    refine ⟨net, same, ?_⟩
    simpa only [Stage.after, if_neg front] using at_

/-- Once the failed-over successor has forgotten its predecessor, a notification closes the gap. -/
theorem Network.IsAt.notify_reset (gap : IsGap translate survivors f a b)
    (at_ : net.IsAt translate survivors f a b .reset) :
    ∃ net', Chord.notify translate net a = some net' ∧
      net'.IsAt translate survivors f a b .closed := by
  obtain ⟨post, none⟩ := at_.gap
  have self := at_.self a gap.front
  have told := notify_fresh self (gap.ports a gap.front) post (at_.members ▸ gap.across.1) none
  refine ⟨_, told, ?_⟩
  refine at_.congr rfl ?_ ?_ ?_ ?_
  · intro x
    rw [set_state]
    split_ifs with behind
    · rw [behind]
    · rfl
  · intro x away
    rw [set_state]
    split_ifs with behind
    · rw [behind]
    · rfl
  · intro x other
    rw [set_state_of_ne net other]
  · refine ⟨?_, ?_⟩
    · rw [set_state]
      split_ifs with same
      · exact (congrArg (fun x => (net.state x).postnode) same.symm).trans post
      · exact post
    · rw [set_state_self]

/-- Any survivor notifies its successor. -/
theorem Network.IsAt.notify (gap : IsGap translate survivors f a b)
    (at_ : net.IsAt translate survivors f a b stage) (live : p ∈ survivors) :
    ∃ net', Chord.notify translate net p = some net' ∧
      net'.IsAt translate survivors f a b (stage.after a (.notify p)) := by
  by_cases front : p = a
  · simp only [Stage.after, if_pos front]
    rw [front]
    cases stage with
    | broken =>
      have reach := at_.open_gap gap
      rw [notify_failover reach.1 reach.2]
      exact at_.failover.notify_reset gap
    | reset => exact at_.notify_reset gap
    | closed =>
      obtain ⟨post, known⟩ := at_.gap
      have self := at_.self a gap.front
      have told := notify_same self (gap.ports a gap.front) post (at_.members ▸ gap.across.1) known
      exact ⟨net, told, at_⟩
  · obtain ⟨q, next, post, known⟩ := at_.linked gap live front
    have self := at_.self p live
    have told := notify_same self (gap.ports p live) post next known
    refine ⟨net, told, ?_⟩
    simpa only [Stage.after, if_neg front] using at_

/-- A heartbeat to a live predecessor changes its second successor only. -/
theorem Network.IsAt.keepAlive
    (at_ : net.IsAt translate survivors f a b stage) {r : Node} (behind : q = a → stage = .closed) :
    (net.set q { net.state q with postnode2 := r }).IsAt translate survivors f a b stage := by
  have kept (x : ℕ) :
      ((net.set q { net.state q with postnode2 := r }).state x).localNode =
          (net.state x).localNode ∧
        ((net.set q { net.state q with postnode2 := r }).state x).postnode =
          (net.state x).postnode ∧
        ((net.set q { net.state q with postnode2 := r }).state x).prenode =
          (net.state x).prenode := by
    rw [set_state]
    split_ifs with here
    · rw [here]
      exact ⟨rfl, rfl, rfl⟩
    · exact ⟨rfl, rfl, rfl⟩
  refine at_.congr rfl (fun x => (kept x).1) (fun x _ => (kept x).2.1)
    (fun x _ => (kept x).2.2) ?_
  have across := at_.gap
  cases stage with
  | broken =>
    have away : a ≠ q := fun same => by cases behind same.symm
    refine ⟨(kept a).2.1.trans across.1, ?_, fun s known => ?_⟩
    · rw [set_state_of_ne net away]
      exact across.2.1
    · exact across.2.2 s ((kept b).2.2 ▸ known)
  | reset => exact ⟨(kept a).2.1.trans across.1, (kept b).2.2.trans across.2⟩
  | closed => exact ⟨(kept a).2.1.trans across.1, (kept b).2.2.trans across.2⟩

/-- The node behind the gap forgets the crashed one. -/
theorem Network.IsAt.dropPrenode (at_ : net.IsAt translate survivors f a b .broken) :
    (net.set b (dropPrenode (net.state b))).IsAt translate survivors f a b .broken := by
  have across := at_.gap
  have kept (x : ℕ) :
      ((net.set b (Chord.dropPrenode (net.state b))).state x).localNode = (net.state x).localNode ∧
        ((net.set b (Chord.dropPrenode (net.state b))).state x).postnode =
          (net.state x).postnode ∧
        ((net.set b (Chord.dropPrenode (net.state b))).state x).postnode2 =
          (net.state x).postnode2 := by
    rw [set_state]
    split_ifs with here
    · rw [here]
      exact ⟨rfl, rfl, rfl⟩
    · exact ⟨rfl, rfl, rfl⟩
  refine at_.congr rfl (fun x => (kept x).1) (fun x _ => (kept x).2.1) ?_ ?_
  · intro x other
    rw [set_state_of_ne net other]
  · refine ⟨(kept a).2.1.trans across.1, (kept a).2.2.trans across.2.1, fun r known => ?_⟩
    rw [set_state_self] at known
    cases known

/-- Survivors know their successors by ports of the machine. -/
theorem Network.IsAt.isPort (gap : IsGap translate survivors f a b)
    (at_ : net.IsAt translate survivors f a b stage) (live : p ∈ survivors) :
    IsPort (net.state p).postnode.port := by
  by_cases front : p = a
  · have across := at_.gap
    rw [front]
    cases stage with
    | broken =>
      rw [across.1]
      exact gap.port
    | reset | closed =>
      rw [across.1]
      exact gap.ports b gap.across.1
  · obtain ⟨q, next, post⟩ := at_.postnode p live front
    rw [post]
    exact gap.ports q next.1

/-- Any survivor sends its heartbeat. -/
theorem Network.IsAt.heartBeat (gap : IsGap translate survivors f a b)
    (at_ : net.IsAt translate survivors f a b stage) (live : p ∈ survivors) :
    ∃ net', Chord.heartBeat translate net p = some net' ∧
      net'.IsAt translate survivors f a b stage := by
  have fits := (at_.isPort gap live).2
  by_cases behind : p = b
  · have across := at_.gap
    cases known : (net.state p).prenode with
    | none => exact ⟨net, by simp only [Chord.heartBeat, known], at_⟩
    | some r =>
      rw [behind] at known
      cases stage with
      | broken =>
        have crashed : r.port ∉ net.members := by
          rw [across.2.2 r known, at_.members]
          exact gap.crashed
        rw [behind]
        exact ⟨_, heartBeat_dead known crashed, at_.dropPrenode⟩
      | reset =>
        rw [across.2] at known
        cases known
      | closed =>
        have same := Option.some.inj (known.symm.trans across.2)
        have member : r.port ∈ net.members := by
          rw [same, at_.members]
          exact gap.front
        rw [behind] at fits ⊢
        exact ⟨_, heartBeat_live known member fits, at_.keepAlive fun _ => rfl⟩
  · obtain ⟨q, live', next, known⟩ := at_.prenode p live behind
    have member : (nodeAt translate q).port ∈ net.members := by
      rw [at_.members]
      exact live'
    refine ⟨_, heartBeat_live known member fits, at_.keepAlive fun front => ?_⟩
    have away : q ≠ a := by
      intro same
      rw [same] at next
      exact behind (next.unique gap.distinct gap.across)
    exact absurd front away

/-! ## Runs -/

/-- Any exchange of a survivor ends and takes the repair to the next stage. -/
theorem Network.IsAt.action (gap : IsGap translate survivors f a b)
    (at_ : net.IsAt translate survivors f a b stage) (action : Action)
    (live : action.node ∈ survivors) :
    ∃ net', action.run translate net = some net' ∧
      net'.IsAt translate survivors f a b (stage.after a action) := by
  cases action with
  | stabilize p => exact at_.stabilize gap live
  | notify p => exact at_.notify gap live
  | heartBeat p => exact at_.heartBeat gap live

/-- Any exchanges of survivors end, in any order. -/
theorem Network.IsAt.actions (gap : IsGap translate survivors f a b) (actions : List Action)
    (at_ : net.IsAt translate survivors f a b stage)
    (live : ∀ action ∈ actions, action.node ∈ survivors) :
    ∃ net', runActions translate actions net = some net' ∧
      net'.IsAt translate survivors f a b (actions.foldl (Stage.after a) stage) := by
  induction actions generalizing net stage with
  | nil => exact ⟨net, rfl, at_⟩
  | cons action rest ih =>
    obtain ⟨next, ran, at'⟩ := at_.action gap action (live action List.mem_cons_self)
    have onward : ∀ later ∈ rest, later.node ∈ survivors := fun later inside =>
      live later (List.mem_cons_of_mem _ inside)
    obtain ⟨net', ran', final⟩ := ih at' onward
    refine ⟨net', ?_, final⟩
    rw [runActions, List.foldlM_cons, ran]
    exact ran'

/-- A closed gap stays closed. -/
theorem Stage.after_closed (a : ℕ) (action : Action) : Stage.closed.after a action = .closed := by
  cases action with
  | stabilize p => exact ite_self _
  | notify p => exact ite_self _
  | heartBeat p => rfl

/-- A notification from the node in front of the gap closes it for good. -/
theorem Stage.foldl_after (actions : List Action) (notified : Action.notify a ∈ actions) :
    actions.foldl (Stage.after a) stage = .closed := by
  have stays (later : List Action) : later.foldl (Stage.after a) .closed = .closed := by
    induction later with
    | nil => rfl
    | cons action rest ih => rw [List.foldl_cons, Stage.after_closed, ih]
  obtain ⟨before, later, rfl⟩ := List.append_of_mem notified
  rw [List.foldl_append, List.foldl_cons]
  simp only [Stage.after, if_true]
  exact stays later

/-- Where the gap is closed, every survivor knows its neighbours. -/
theorem Network.IsAt.knowsNeighbours (gap : IsGap translate survivors f a b)
    (at_ : net.IsAt translate survivors f a b .closed) (live : p ∈ survivors) :
    KnowsNeighbours translate survivors p (net.state p) := by
  have across := at_.gap
  constructor
  · by_cases front : p = a
    · rw [front]
      exact ⟨b, gap.across, across.1⟩
    · exact at_.postnode p live front
  · by_cases behind : p = b
    · rw [behind]
      exact ⟨a, gap.front, gap.across, across.2⟩
    · exact at_.prenode p live behind

/-! ## The crash -/

/-- A node that comes before itself is the only one. -/
theorem Precedes.single {nodes : Finset ℕ} (distinct : Set.InjOn (ringKey translate) nodes)
    (live : p ∈ nodes) (next : Precedes translate nodes p p) : nodes.card ≤ 1 := by
  have alone := next.alone (fun x _ => ringKey_lt x) live rfl
  rw [Finset.card_le_one]
  intro x hx y hy
  exact distinct hx hy ((alone x hx).trans (alone y hy).symm)

/-- On a ring of two nodes or more no node is its own neighbour. -/
theorem IsCircle.apart (circle : IsCircle translate net) (two : 2 ≤ net.members.card)
    (live : p ∈ net.members) (next : Precedes translate net.members p q) : p ≠ q := by
  intro same
  rw [← same] at next
  have alone := next.single circle.distinct live
  omega

/-- A crash leaves a gap that its neighbours still point across. -/
theorem IsCircle.crash (circle : IsCircle translate net) (two : 2 ≤ net.members.card)
    (crashed : f ∈ net.members) (front : a ∈ net.members)
    (before : Precedes translate net.members a f) :
    ∃ b, IsGap translate (net.members.erase f) f a b ∧
      (net.crash f).IsAt translate (net.members.erase f) f a b .broken := by
  have bound : ∀ x ∈ net.members, ringKey translate x < ringSize := fun x _ => ringKey_lt x
  have kept : net.members.erase f ⊆ net.members := Finset.erase_subset ..
  obtain ⟨b, next, -⟩ := (circle.neighbours f crashed).1
  have apart := circle.apart two front before
  have apart' := circle.apart two crashed next
  have across := before.trans_erase bound circle.distinct (ringKey_lt a) next apart'.symm
  refine ⟨b, ⟨fun x live => circle.ports x (kept live), circle.ports f crashed,
    circle.distinct.mono kept, Finset.notMem_erase f _, Finset.mem_erase.mpr ⟨apart, front⟩,
    across⟩, ?_⟩
  refine ⟨rfl, fun x live => circle.self x (kept live), fun x live away => ?_,
    fun x live behind => ?_, ?_, ?_, fun r known => ?_⟩
  · obtain ⟨q, next', post⟩ := (circle.neighbours x (kept live)).1
    have stays : q ≠ f := by
      intro same
      rw [same] at next'
      exact away (next'.start_unique circle.distinct (kept live) front before)
    exact ⟨q, next'.mono kept (Finset.mem_erase.mpr ⟨stays, next'.1⟩), post⟩
  · obtain ⟨q, live', next', pre⟩ := (circle.neighbours x (kept live)).2
    have stays : q ≠ f := by
      intro same
      rw [same] at next'
      exact behind (next'.unique circle.distinct next)
    exact ⟨q, Finset.mem_erase.mpr ⟨stays, live'⟩, next'.mono kept live, pre⟩
  · obtain ⟨q, next', post⟩ := (circle.neighbours a front).1
    exact next'.unique circle.distinct before ▸ post
  · obtain ⟨q, r, next', next'', second⟩ := circle.postnode2 a front
    rw [next'.unique circle.distinct before] at next''
    exact next''.unique circle.distinct next ▸ second
  · obtain ⟨q, live', next', pre⟩ := (circle.neighbours b next.1).2
    rw [next'.start_unique circle.distinct live' crashed next] at pre
    exact Option.some.inj (known.symm.trans pre)

/-- One node of a ring crashes. However the survivors interleave their exchanges, all of them end,
and once the predecessor of the crashed node has stabilised and notified, every survivor knows its
neighbours on the ring of the survivors. -/
theorem crash_repaired (translate : ℕ → UInt32) (net : Network) (circle : IsCircle translate net)
    (two : 2 ≤ net.members.card) (f a : ℕ) (crashed : f ∈ net.members) (front : a ∈ net.members)
    (before : Precedes translate net.members a f) (actions : List Action)
    (live : ∀ action ∈ actions, action.node ∈ net.members.erase f)
    (repair : [Action.stabilize a, Action.notify a].Sublist actions) :
    ∃ net', runActions translate actions (net.crash f) = some net' ∧
      net'.members = net.members.erase f ∧
        ∀ p ∈ net'.members, KnowsNeighbours translate net'.members p (net'.state p) := by
  obtain ⟨b, gap, broken⟩ := circle.crash two crashed front before
  obtain ⟨net', ran, at_⟩ := broken.actions gap actions live
  have notified : Action.notify a ∈ actions := repair.subset (by simp)
  rw [Stage.foldl_after actions notified] at at_
  refine ⟨net', ran, at_.members, fun p survives => ?_⟩
  rw [at_.members] at survives ⊢
  exact at_.knowsNeighbours gap survives

/-- A node of a ring of three that knows its neighbours. -/
def circleNode (port postnode postnode2 : ℕ) : NodeState :=
  { freshNode port postnode with
    postnode2 := nodeAt keyOfThree postnode2
    prenode := some (nodeAt keyOfThree postnode2) }

/-- Three nodes with the keys 10, 20 and 30 that know their neighbours. -/
def circleNodes : Network where
  members := {4000, 5000, 6000}
  state port :=
    if port = 4000 then circleNode 4000 5000 6000
    else if port = 5000 then circleNode 5000 6000 4000
    else circleNode 6000 4000 5000

/-- Three nodes with the keys 10, 20 and 30 are a circle. -/
theorem circleNodes_isCircle : IsCircle keyOfThree circleNodes := by
  have next : ∀ p ∈ circleNodes.members, ∃ q ∈ circleNodes.members, ∃ r ∈ circleNodes.members,
      Precedes keyOfThree circleNodes.members p q ∧ Precedes keyOfThree circleNodes.members q r ∧
        Precedes keyOfThree circleNodes.members r p ∧
          (circleNodes.state p).postnode = nodeAt keyOfThree q ∧
            (circleNodes.state p).postnode2 = nodeAt keyOfThree r ∧
              (circleNodes.state p).prenode = some (nodeAt keyOfThree r) := by decide
  have distinct : ∀ p ∈ circleNodes.members, ∀ q ∈ circleNodes.members,
      ringKey keyOfThree p = ringKey keyOfThree q → p = q := by decide
  have ports : ∀ p ∈ circleNodes.members, 0 < p ∧ p < 2 ^ 16 := by decide
  refine ⟨ports, fun p hp q hq => distinct p hp q hq, by decide, fun p live => ?_, fun p live => ?_⟩
  · obtain ⟨q, -, r, live', after, -, before, post, -, pre⟩ := next p live
    exact ⟨⟨q, after, post⟩, r, live', before, pre⟩
  · obtain ⟨q, -, r, -, after, after', -, -, second, -⟩ := next p live
    exact ⟨q, r, after, after', second⟩

/-- The second node crashes; the third one misses it first, and the first one repairs the ring. -/
theorem crash_repaired_three : ∃ net',
    runActions keyOfThree [.heartBeat 6000, .stabilize 4000, .stabilize 6000, .notify 4000]
        (circleNodes.crash 5000) = some net' ∧
      net'.members = circleNodes.members.erase 5000 ∧
        ∀ p ∈ net'.members, KnowsNeighbours keyOfThree net'.members p (net'.state p) :=
  crash_repaired keyOfThree circleNodes circleNodes_isCircle (by decide) 5000 4000 (by decide)
    (by decide) (by decide) _ (by decide) (by decide)

end TinyTools.Chord
