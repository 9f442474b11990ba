import TinyTools.Chord.Repair

/-!
# Crashes one after another

A ring survives any number of crashes as long as every one is repaired before the next: the node in
front of the crashed one has notified, and after that every survivor has sent its heartbeat.
-/

namespace TinyTools.Chord

open TinyTools.Lib

variable (translate : ℕ → UInt32)

/-- The nodes of a ring that know themselves and their neighbours. -/
structure Network.IsClosed (nodes : Finset ℕ) (net : Network) : Prop where
  /-- Nobody else lives. -/
  members : net.members = nodes
  /-- A node knows itself. -/
  self : ∀ p ∈ nodes, (net.state p).localNode = nodeAt translate p
  /-- The neighbours. -/
  neighbours : ∀ p ∈ nodes, KnowsNeighbours translate nodes p (net.state p)

/-- A node knows the successor of its successor. -/
def KnowsSecond (nodes : Finset ℕ) (p : ℕ) (s : NodeState) : Prop :=
  ∃ q r, Precedes translate nodes p q ∧ Precedes translate nodes q r ∧
    s.postnode2 = nodeAt translate r

variable {translate} {net : Network} {nodes survivors : Finset ℕ} {f g a b c p q : ℕ}

/-! ## Second successors -/

/-- The successor of a node knows it. -/
theorem Network.IsClosed.linked (closed : net.IsClosed translate nodes)
    (distinct : Set.InjOn (ringKey translate) nodes) (live : p ∈ nodes) :
    ∃ q ∈ nodes, (net.state p).postnode = nodeAt translate q ∧
      (net.state q).prenode = some (nodeAt translate p) := by
  obtain ⟨q, next, post⟩ := (closed.neighbours p live).1
  obtain ⟨p', live', next', known⟩ := (closed.neighbours q next.1).2
  rw [next'.start_unique distinct live' live next] at known
  exact ⟨q, next.1, post, known⟩

/-- A closed ring stays closed when second successors change. -/
theorem Network.IsClosed.setSecond (closed : net.IsClosed translate nodes) (r : Node) :
    (net.set p { net.state p with postnode2 := r }).IsClosed translate nodes := by
  have kept (x : ℕ) : ((net.set p { net.state p with postnode2 := r }).state x).localNode =
        (net.state x).localNode ∧
      ((net.set p { net.state p with postnode2 := r }).state x).postnode =
        (net.state x).postnode ∧
      ((net.set p { net.state p with postnode2 := r }).state x).prenode =
        (net.state x).prenode := by
    rw [set_state]
    split_ifs with here
    · rw [here]
      exact ⟨rfl, rfl, rfl⟩
    · exact ⟨rfl, rfl, rfl⟩
  refine ⟨closed.members, fun x live => (kept x).1.trans (closed.self x live), fun x live => ?_⟩
  have known := closed.neighbours x live
  unfold KnowsNeighbours at known ⊢
  rw [(kept x).2.1, (kept x).2.2]
  exact known

/-- What an exchange does on a closed ring: a heartbeat tells the predecessor its second successor,
the others change nothing. -/
theorem Network.IsClosed.action (closed : net.IsClosed translate nodes)
    (distinct : Set.InjOn (ringKey translate) nodes) (ports : ∀ p ∈ nodes, IsPort p)
    (action : Action) (live : action.node ∈ nodes) :
    ∃ net', action.run translate net = some net' ∧ net'.IsClosed translate nodes ∧
      ∀ p ∈ nodes, KnowsSecond translate nodes p (net.state p) ∨
        (∃ q, Precedes translate nodes p q ∧ action = .heartBeat q) →
          KnowsSecond translate nodes p (net'.state p) := by
  cases action with
  | stabilize q =>
    obtain ⟨r, next, post, known⟩ := closed.linked distinct live
    have same := stabilize_same (closed.self q live) (ports q live) post (closed.members ▸ next)
      (.inr known)
    refine ⟨net, same, closed, fun p _ told => ?_⟩
    rcases told with already | ⟨r, -, other⟩
    · exact already
    · cases other
  | notify q =>
    obtain ⟨r, next, post, known⟩ := closed.linked distinct live
    have same := notify_same (closed.self q live) (ports q live) post (closed.members ▸ next) known
    refine ⟨net, same, closed, fun p _ told => ?_⟩
    rcases told with already | ⟨r, -, other⟩
    · exact already
    · cases other
  | heartBeat q =>
    obtain ⟨⟨r, next, post⟩, front, live', before, known⟩ := closed.neighbours q live
    have fits : (net.state q).postnode.port < 2 ^ 16 := by
      rw [post]
      exact (ports r next.1).2
    have member : (nodeAt translate front).port ∈ net.members := closed.members ▸ live'
    have ran := @heartBeat_live translate _ _ _ known member fits
    refine ⟨_, ran, closed.setSecond _, fun p inside told => ?_⟩
    have second : (net.state q).postnode.port = r := by rw [post]; rfl
    have here : (nodeAt translate front).port = front := rfl
    rw [set_state, here, second]
    by_cases same : p = front
    · rw [if_pos same, same]
      exact ⟨q, r, before, next, rfl⟩
    · rw [if_neg same]
      rcases told with already | ⟨q', before', equal⟩
      · exact already
      · cases equal
        exact absurd (before'.start_unique distinct inside live' before) same

/-- Any exchanges on a closed ring: heartbeats of all nodes tell all second successors. -/
theorem Network.IsClosed.actions (distinct : Set.InjOn (ringKey translate) nodes)
    (ports : ∀ p ∈ nodes, IsPort p) (actions : List Action) (closed : net.IsClosed translate nodes)
    (live : ∀ action ∈ actions, action.node ∈ nodes) :
    ∃ net', runActions translate actions net = some net' ∧ net'.IsClosed translate nodes ∧
      ∀ p ∈ nodes, KnowsSecond translate nodes p (net.state p) ∨
        (∃ q, Precedes translate nodes p q ∧ Action.heartBeat q ∈ actions) →
          KnowsSecond translate nodes p (net'.state p) := by
  induction actions generalizing net with
  | nil =>
    refine ⟨net, rfl, closed, fun p _ told => ?_⟩
    rcases told with already | ⟨r, -, none⟩
    · exact already
    · cases none
  | cons action rest ih =>
    obtain ⟨middle, ran, closed', kept⟩ :=
      closed.action distinct ports action (live action List.mem_cons_self)
    obtain ⟨net', ran', closed'', kept'⟩ :=
      ih closed' fun later inside => live later (List.mem_cons_of_mem _ inside)
    refine ⟨net', ?_, closed'', fun p inside told => ?_⟩
    · rw [runActions, List.foldlM_cons, ran]
      exact ran'
    · apply kept' p inside
      rcases told with already | ⟨q, before, beats⟩
      · exact Or.inl (kept p inside (Or.inl already))
      · rcases List.mem_cons.mp beats with now | later
        · exact Or.inl (kept p inside (Or.inr ⟨q, before, now.symm⟩))
        · exact Or.inr ⟨q, before, later⟩

/-- A closed ring whose second successors are known is a circle. -/
theorem Network.IsClosed.isCircle (closed : net.IsClosed translate nodes)
    (distinct : Set.InjOn (ringKey translate) nodes) (ports : ∀ p ∈ nodes, IsPort p)
    (seconds : ∀ p ∈ nodes, KnowsSecond translate nodes p (net.state p)) :
    IsCircle translate net := by
  have members := closed.members
  rw [← members] at distinct ports seconds
  refine ⟨ports, distinct, ?_, ?_, seconds⟩
  · rw [members]
    exact closed.self
  · rw [members]
    exact closed.neighbours

/-! ## One crash after another -/

variable (translate)

/-- A crash and what the survivors do until the next one: the exchanges that repair the ring, and
those that make it ready for another crash. -/
structure Outage where
  /-- The node that crashes. -/
  crashed : ℕ
  /-- The exchanges that close the gap. -/
  repair : List Action
  /-- The exchanges after that. -/
  recovery : List Action

/-- The survivors do enough: the node in front of the gap notifies, and then everyone sends a
heartbeat. -/
structure Outage.Overcome (nodes : Finset ℕ) (outage : Outage) : Prop where
  /-- A node of the ring crashes. -/
  member : outage.crashed ∈ nodes
  /-- Some node survives. -/
  others : 2 ≤ nodes.card
  /-- Only survivors act. -/
  live : ∀ action ∈ outage.repair ++ outage.recovery, action.node ∈ nodes.erase outage.crashed
  /-- The gap is closed. -/
  notified : ∀ p ∈ nodes, Precedes translate nodes p outage.crashed → .notify p ∈ outage.repair
  /-- Then everyone sends a heartbeat. -/
  beats : ∀ p ∈ nodes.erase outage.crashed, .heartBeat p ∈ outage.recovery

/-- Each of several crashes is overcome before the next one. -/
def AllOvercome : Finset ℕ → List Outage → Prop
  | _, [] => True
  | nodes, outage :: later =>
    outage.Overcome translate nodes ∧ AllOvercome (nodes.erase outage.crashed) later

/-- The crashes, and what the survivors do. -/
def survive (outages : List Outage) (net : Network) : Option Network :=
  outages.foldlM (fun net outage =>
    runActions translate (outage.repair ++ outage.recovery) (net.crash outage.crashed)) net

variable {translate}

/-- A crash that is overcome leaves a circle of the survivors. -/
theorem IsCircle.overcome (circle : IsCircle translate net) {outage : Outage}
    (overcome : outage.Overcome translate net.members) :
    ∃ net', runActions translate (outage.repair ++ outage.recovery) (net.crash outage.crashed) =
        some net' ∧ IsCircle translate net' ∧ net'.members = net.members.erase outage.crashed := by
  obtain ⟨a, front, before, -⟩ := (circle.neighbours _ overcome.member).2
  obtain ⟨b, gap, broken⟩ := circle.crash overcome.others overcome.member front before
  have live := List.forall_mem_append.mp overcome.live
  obtain ⟨middle, ran, at_⟩ := broken.actions gap outage.repair live.1
  rw [Stage.foldl_after outage.repair (overcome.notified a front before)] at at_
  have closed : middle.IsClosed translate (net.members.erase outage.crashed) :=
    ⟨at_.members, at_.self, fun p survives => at_.knowsNeighbours gap survives⟩
  obtain ⟨net', ran', closed', told⟩ :=
    closed.actions gap.distinct gap.ports outage.recovery live.2
  have seconds : ∀ p ∈ net.members.erase outage.crashed,
      KnowsSecond translate (net.members.erase outage.crashed) p (net'.state p) := by
    intro p survives
    obtain ⟨q, next, -⟩ := (closed.neighbours p survives).1
    exact told p survives (Or.inr ⟨q, next, overcome.beats q next.1⟩)
  refine ⟨net', ?_, closed'.isCircle gap.distinct gap.ports seconds, closed'.members⟩
  rw [runActions, List.foldlM_append]
  exact Option.bind_eq_some_iff.mpr ⟨middle, ran, ran'⟩

/-- A ring whose nodes know their neighbours and second successors survives any number of crashes
that come one after another: whatever else the survivors exchange meanwhile, all exchanges end, and
the survivors know their neighbours and second successors again each time that the node in front of
the crashed one has notified and after that every survivor has sent its heartbeat. -/
theorem crashes_overcome (translate : ℕ → UInt32) (net : Network) (circle : IsCircle translate net)
    (outages : List Outage) (overcome : AllOvercome translate net.members outages) :
    ∃ net', survive translate outages net = some net' ∧ IsCircle translate net' ∧
      net'.members = net.members \ (outages.map Outage.crashed).toFinset := by
  induction outages generalizing net with
  | nil => exact ⟨net, rfl, circle, by simp⟩
  | cons outage later ih =>
    obtain ⟨middle, ran, circle', members⟩ := circle.overcome overcome.1
    have overcome' := overcome.2
    rw [← members] at overcome'
    obtain ⟨net', ran', circle'', members'⟩ := ih middle circle' overcome'
    refine ⟨net', ?_, circle'', ?_⟩
    · rw [survive, List.foldlM_cons, ran]
      exact ran'
    · rw [members', members, List.map_cons, List.toFinset_cons, Finset.erase_sdiff_comm,
        ← Finset.sdiff_insert]

/-- Two of three nodes crash, one after the other. -/
theorem crashes_overcome_three : ∃ net',
    survive keyOfThree [⟨5000, [.notify 4000], [.heartBeat 6000, .heartBeat 4000]⟩,
      ⟨4000, [.heartBeat 6000, .notify 6000], [.heartBeat 6000]⟩] circleNodes = some net' ∧
      IsCircle keyOfThree net' ∧ net'.members = circleNodes.members \
        ([⟨5000, [.notify 4000], [.heartBeat 6000, .heartBeat 4000]⟩,
          ⟨4000, [.heartBeat 6000, .notify 6000], [.heartBeat 6000]⟩].map
            Outage.crashed).toFinset := by
  apply crashes_overcome keyOfThree circleNodes circleNodes_isCircle
  refine ⟨⟨?_, ?_, ?_, ?_, ?_⟩, ⟨?_, ?_, ?_, ?_, ?_⟩, trivial⟩ <;> decide

end TinyTools.Chord
