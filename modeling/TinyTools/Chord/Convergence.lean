import TinyTools.Chord.UpdateLoop

/-!
# Convergence

Nodes may join as often as they like. As long as every live node goes on stabilising, notifying and
sending heartbeats, in whatever order, from some time on every node knows its successor, its
predecessor and its second successor, and no exchange changes them again. Without further joins
this takes at most twice the square of the number of nodes in rounds.
-/

namespace TinyTools.Chord

open TinyTools.Lib Filter

variable (translate : ℕ → UInt32)

/-- One move after another. -/
def runMoves (moves : List Move) (net : Network) : Option Network :=
  moves.foldlM (Move.run translate) net

/-- Every node stabilises and notifies. -/
def IsRound (nodes : Finset ℕ) (moves : List Move) : Prop :=
  ∀ p ∈ nodes, Move.stabilize p ∈ moves ∧ Move.notify p ∈ moves

variable {translate} {net net' : Network} {move : Move} {p q : ℕ}

/-- Nodes on a closed ring know their neighbours. -/
theorem Network.IsSafe.knowsNeighbours (safe : net.IsSafe translate)
    (closed : net.pointers.IsClosed ringSize (ringKey translate)) (live : p ∈ net.members) :
    KnowsNeighbours translate net.members p (net.state p) := by
  obtain ⟨q, front, follows⟩ := closed.exists_next live
  have known := closed.prev q front
  rw [follows] at known
  obtain ⟨r, holds, port⟩ := Option.map_eq_some_iff.mp known
  obtain ⟨x, -, rfl⟩ := (safe.known p live).prenode r holds
  have same : x = q := port
  rw [same] at holds
  have before := closed.next q front
  rw [follows] at before
  exact ⟨⟨_, closed.next p live, (safe.records live).2⟩, q, front, before, holds⟩

/-! ## Rounds -/

/-- After some moves there is less room, or none of them found any. -/
theorem Network.IsSafe.runMoves_pointers (safe : net.IsSafe translate) (moves : List Move)
    (each : ∀ move ∈ moves, move.Stays ∧ move.Enabled translate net) :
    ∃ net', runMoves translate moves net = some net' ∧ net'.IsSafe translate ∧
      net'.members = net.members ∧
        (net'.pointers = net.pointers ∧ (∀ move ∈ moves, move.Idle translate net.pointers) ∨
          Fills translate net.pointers net'.pointers) := by
  induction moves generalizing net with
  | nil => exact ⟨net, rfl, safe, rfl, Or.inl ⟨rfl, fun _ none => absurd none List.not_mem_nil⟩⟩
  | cons move moves ih =>
    obtain ⟨⟨stays, enabled⟩, rest⟩ := List.forall_mem_cons.mp each
    obtain ⟨next, ran, safe'⟩ := safe.runs enabled
    obtain ⟨members, change⟩ := safe.run_pointers stays enabled ran
    obtain ⟨last, later, safe'', members', change'⟩ :=
      ih safe' fun move inside => ⟨(rest move inside).1, (rest move inside).2.of_members members⟩
    refine ⟨last, ?_, safe'', members'.trans members, ?_⟩
    · rw [runMoves, List.foldlM_cons, ran]
      exact later
    · rcases change with ⟨same, idle⟩ | ⟨room, less⟩ <;>
        rcases change' with ⟨same', idle'⟩ | fills
      · rw [same] at same' idle'
        exact Or.inl ⟨same', List.forall_mem_cons.mpr ⟨idle, idle'⟩⟩
      · rw [same] at fills
        exact Or.inr fills
      · rw [← same'] at less
        exact Or.inr ⟨room, less⟩
      · exact Or.inr ⟨room, fills.2.trans less⟩

/-- A round makes a change, unless there is no room for any. -/
theorem Network.IsSafe.round (safe : net.IsSafe translate) {moves : List Move}
    (round : IsRound net.members moves)
    (each : ∀ move ∈ moves, move.Stays ∧ move.Enabled translate net) :
    ∃ net', runMoves translate moves net = some net' ∧ net'.IsSafe translate ∧
      net'.members = net.members ∧
        (net'.pointers = net.pointers ∧ net.pointers.IsStill ringSize (ringKey translate) ∨
          Fills translate net.pointers net'.pointers) := by
  obtain ⟨net', ran, safe', members, change⟩ := safe.runMoves_pointers moves each
  refine ⟨net', ran, safe', members, ?_⟩
  rcases change with ⟨same, idle⟩ | fills
  · refine Or.inl ⟨same, fun p live => ?_⟩
    obtain ⟨stabilizes, notifies⟩ := round p live
    exact ⟨idle _ stabilizes, idle _ notifies⟩
  · exact Or.inr fills

/-- Rounds use up the room for changes. -/
theorem Network.IsSafe.rounds (safe : net.IsSafe translate) (rounds : List (List Move))
    (each : ∀ moves ∈ rounds, IsRound net.members moves ∧
      ∀ move ∈ moves, move.Stays ∧ move.Enabled translate net)
    (enough : net.pointers.IsStill ringSize (ringKey translate) ∨
      net.pointers.slack ringSize (ringKey translate) ≤ rounds.length) :
    ∃ net', runMoves translate rounds.flatten net = some net' ∧ net'.IsSafe translate ∧
      net'.members = net.members ∧ net'.pointers.IsStill ringSize (ringKey translate) := by
  induction rounds generalizing net with
  | nil =>
    refine ⟨net, rfl, safe, rfl, ?_⟩
    rcases enough with still | none
    · exact still
    · -- a change would leave less than no room
      rw [List.length_nil] at none
      intro p live
      constructor
      · intro x adopts
        have less := safe.ring.slack_adopt live adopts
        omega
      · intro announces
        have less := safe.ring.slack_announce ringKey_lt live announces
        omega
  | cons moves rounds ih =>
    obtain ⟨⟨round, enabled⟩, rest⟩ := List.forall_mem_cons.mp each
    obtain ⟨next, ran, safe', members, change⟩ := safe.round round enabled
    have rest' : ∀ moves ∈ rounds, IsRound next.members moves ∧
        ∀ move ∈ moves, move.Stays ∧ move.Enabled translate next := by
      intro moves inside
      obtain ⟨round, enabled⟩ := rest moves inside
      rw [members]
      refine ⟨round, fun move among => ?_⟩
      obtain ⟨stays, able⟩ := enabled move among
      exact ⟨stays, able.of_members members⟩
    have enough' : next.pointers.IsStill ringSize (ringKey translate) ∨
        next.pointers.slack ringSize (ringKey translate) ≤ rounds.length := by
      rcases change with ⟨same, still⟩ | ⟨room, less⟩
      · rw [same]
        exact Or.inl still
      · have before := enough.resolve_left room
        rw [List.length_cons] at before
        exact Or.inr (by omega)
    obtain ⟨last, later, safe'', members', still⟩ := ih safe' rest' enough'
    refine ⟨last, ?_, safe'', members'.trans members, still⟩
    rw [List.flatten_cons, runMoves, List.foldlM_append]
    rw [runMoves] at ran
    rw [ran]
    exact later

/-- Twice the square of the number of nodes is enough rounds for every node to know its
neighbours, whatever else goes on and in whatever order. -/
theorem rounds_converge (translate : ℕ → UInt32) (net : Network)
    (reachable : Reachable translate net) (rounds : List (List Move))
    (each : ∀ moves ∈ rounds, IsRound net.members moves ∧
      ∀ move ∈ moves, move.Stays ∧ move.Enabled translate net)
    (enough : 2 * net.members.card ^ 2 ≤ rounds.length) :
    ∃ net', runMoves translate rounds.flatten net = some net' ∧ net'.members = net.members ∧
      ∀ p ∈ net'.members, KnowsNeighbours translate net'.members p (net'.state p) := by
  have safe := reachable.safe
  have room : net.pointers.slack ringSize (ringKey translate) ≤ 2 * net.members.card ^ 2 :=
    net.pointers.slack_le
  obtain ⟨net', ran, safe', members, still⟩ :=
    safe.rounds rounds each (Or.inr (room.trans enough))
  have closed := safe'.ring.closed_of_still ringKey_lt still
  exact ⟨net', ran, members, fun p live => safe'.knowsNeighbours closed live⟩

/-- Eight rounds after a second node has joined the first one. -/
theorem rounds_converge_pair : ∃ joined net', join keyOf (nodeAt keyOf 0)
    (firstNetwork keyOf (nodeAt keyOf 0) 4000) 5000 4000 4000 = some joined ∧
      runMoves keyOf (List.replicate 8 [.notify 5000, .stabilize 4000, .heartBeat 4000,
        .stabilize 5000, .notify 4000]).flatten joined = some net' ∧
          net'.members = {5000, 4000} ∧
            ∀ p ∈ net'.members, KnowsNeighbours keyOf net'.members p (net'.state p) := by
  obtain ⟨joined, ran, members, second⟩ := pair_reachable
  obtain ⟨net', run, kept, known⟩ := rounds_converge keyOf joined second
    (List.replicate 8 [.notify 5000, .stabilize 4000, .heartBeat 4000, .stabilize 5000,
      .notify 4000]) (by
        intro moves among
        rw [List.eq_of_mem_replicate among, IsRound, members]
        simp [Move.Stays, Move.Enabled, members])
    (by rw [members, List.length_replicate]; decide)
  exact ⟨joined, net', ran, run, kept.trans members, known⟩

/-! ## Fair executions -/

variable {run : ℕ → Network} {moves : ℕ → Move}

/-- There are ports for finitely many joins only. -/
theorem IsExecution.members_settle (execution : IsExecution translate run moves) :
    ∃ members, ∀ᶠ k in atTop, (run k).members = members := by
  apply @eventually_constant _ (fun k => (run k).members) (fun members => 2 ^ 16 - members.card)
  apply Eventually.of_forall
  intro k
  have ran := execution.ran k
  have enabled := execution.enabled k
  have few : (run (k + 1)).members.card ≤ 2 ^ 16 := by
    rw [← Finset.card_range (2 ^ 16)]
    apply Finset.card_le_card
    intro p live
    exact Finset.mem_range.mpr ((execution.safe (k + 1)).ports p live).2
  rcases (moves k).stays_or_join with stays | ⟨garbage, n, m, answer, joins⟩
  · exact Or.inl ((execution.safe k).run_pointers stays enabled ran).1
  · rw [joins] at ran enabled
    have more := join_members ran
    rw [more, Finset.card_insert_of_notMem enabled.2.1] at few
    rw [more, Finset.card_insert_of_notMem enabled.2.1]
    right
    omega

/-- From some time on nobody joins. -/
theorem IsExecution.stays (execution : IsExecution translate run moves) :
    ∀ᶠ k in atTop, (moves k).Stays := by
  obtain ⟨members, settled⟩ := execution.members_settle
  have next := (tendsto_add_atTop_nat 1).eventually settled
  filter_upwards [settled, next] with k now later
  have ran := execution.ran k
  have enabled := execution.enabled k
  rcases (moves k).stays_or_join with stays | ⟨garbage, n, m, answer, joins⟩
  · exact stays
  · rw [joins] at ran enabled
    have more := join_members ran
    rw [now, later] at more
    have fresh := enabled.2.1
    rw [now, more] at fresh
    exact absurd (Finset.mem_insert_self n members) fresh

/-- From some time on no pointer changes. -/
theorem IsExecution.pointers_settle (execution : IsExecution translate run moves) :
    ∃ s, ∀ᶠ k in atTop, (run k).pointers = s := by
  apply @eventually_constant _ (fun k => (run k).pointers)
    (fun s => s.slack ringSize (ringKey translate))
  filter_upwards [execution.stays] with k stays
  obtain ⟨-, change⟩ :=
    (execution.safe k).run_pointers stays (execution.enabled k) (execution.ran k)
  exact change.imp And.left And.right

/-- In a fair execution the ring is closed from some time on. -/
theorem IsExecution.closes (execution : IsExecution translate run moves)
    (fair : IsFair run moves) : ∃ s : Pointers ℕ, s.IsClosed ringSize (ringKey translate) ∧
      ∀ᶠ k in atTop, (run k).pointers = s := by
  obtain ⟨s, settled⟩ := execution.pointers_settle
  refine ⟨s, ?_, settled⟩
  obtain ⟨start, same⟩ := settled.exists
  have safe : s.IsSafe ringSize (ringKey translate) := same ▸ (execution.safe start).ring
  have next := (tendsto_add_atTop_nat 1).eventually settled
  have idle : ∀ᶠ k in atTop, (moves k).Idle translate s := by
    filter_upwards [settled, next, execution.stays] with k now later stays
    have change :=
      ((execution.safe k).run_pointers stays (execution.enabled k) (execution.ran k)).2
    rw [now, later] at change
    rcases change with ⟨-, idle⟩ | ⟨-, less⟩
    · exact idle
    · exact absurd less (lt_irrefl _)
  apply safe.closed_of_still ringKey_lt
  intro p member
  have live : p ∈ (run start).members := by
    rw [← same] at member
    exact member
  constructor
  · obtain ⟨k, stabilizes, nothing⟩ :=
      ((fair.stabilizes start p live).and_eventually idle).exists
    rwa [stabilizes] at nothing
  · obtain ⟨k, notifies, nothing⟩ := ((fair.notifies start p live).and_eventually idle).exists
    rwa [notifies] at nothing

/-! ## Second successors -/

/-- On a closed ring only heartbeats and refreshed fingers change a node. -/
theorem Network.IsSafe.run_closed (safe : net.IsSafe translate)
    (closed : net.pointers.IsClosed ringSize (ringKey translate)) (stays : move.Stays)
    (enabled : move.Enabled translate net) (ran : move.run translate net = some net') :
    (∀ q, move ≠ .heartBeat q) ∧ net' = net ∨
      (∃ q ∈ net.members, move = .heartBeat (net.pointers.next q) ∧
        net' = net.set q { net.state q with
          postnode2 := nodeAt translate (net.pointers.next (net.pointers.next q)) }) ∨
      ∃ p i answer, move = .fixFingers p i answer ∧
        net' = Chord.fixFingers translate net p i answer := by
  have still := closed.still
  cases move with
  | join => exact stays.elim
  | stabilize p =>
    rcases safe.stabilize_effect enabled with ⟨x, adopts, -⟩ | ⟨-, same⟩
    · exact absurd adopts ((still p enabled).1 x)
    · exact Or.inl ⟨nofun, Option.some.inj (ran.symm.trans same)⟩
  | notify p =>
    rcases safe.notify_effect enabled with ⟨announces, -⟩ | ⟨-, same⟩
    · exact absurd announces (still p enabled).2
    · exact Or.inl ⟨nofun, Option.some.inj (ran.symm.trans same)⟩
  | heartBeat p =>
    obtain ⟨q, front, rfl⟩ := closed.exists_next enabled
    have known := closed.prev q front
    rcases safe.heartBeat_effect enabled with ⟨r, holds, same⟩ | ⟨none, -⟩
    · obtain rfl := Option.some.inj (known.symm.trans holds)
      exact Or.inr (Or.inl ⟨q, front, rfl, Option.some.inj (ran.symm.trans same)⟩)
    · rw [known] at none
      cases none
  | fixFingers p i answer =>
    exact Or.inr (Or.inr ⟨p, i, answer, rfl, (Option.some.inj ran).symm⟩)

/-- On a closed ring the second successor of a node is set right by the heartbeat of its successor
and by nothing else. -/
theorem Network.IsSafe.run_postnode2 (safe : net.IsSafe translate)
    (closed : net.pointers.IsClosed ringSize (ringKey translate)) (stays : move.Stays)
    (enabled : move.Enabled translate net) (ran : move.run translate net = some net')
    (live : p ∈ net.members) :
    (net'.state p).postnode2 = nodeAt translate (net.pointers.next (net.pointers.next p)) ∨
      move ≠ .heartBeat (net.pointers.next p) ∧
        (net'.state p).postnode2 = (net.state p).postnode2 := by
  rcases safe.run_closed closed stays enabled ran with
    ⟨quiet, rfl⟩ | ⟨q, front, rfl, rfl⟩ | ⟨q, i, answer, rfl, rfl⟩
  · exact Or.inr ⟨quiet _, rfl⟩
  · by_cases here : p = q
    · rw [here, set_state_self]
      exact Or.inl rfl
    · rw [set_state_of_ne net here]
      refine Or.inr ⟨fun same => ?_, rfl⟩
      have known := closed.prev q front
      rw [Move.heartBeat.inj same, closed.prev p live] at known
      exact here (Option.some.inj known)
  · refine Or.inr ⟨nofun, ?_⟩
    by_cases here : p = q
    · rw [here, Chord.fixFingers, set_state_self]
      rfl
    · rw [Chord.fixFingers, set_state_of_ne net here]

/-- In a fair execution every node knows its second successor from some time on. -/
theorem IsExecution.postnode2_settles (execution : IsExecution translate run moves)
    (fair : IsFair run moves) {s : Pointers ℕ} (closed : s.IsClosed ringSize (ringKey translate))
    (settled : ∀ᶠ k in atTop, (run k).pointers = s) (member : p ∈ s.members) :
    ∀ᶠ k in atTop, ((run k).state p).postnode2 = nodeAt translate (s.next (s.next p)) := by
  obtain ⟨start, same⟩ := settled.exists
  have live : s.next p ∈ (run start).members := by
    have inside := (closed.next p member).1
    rw [← same] at inside ⊢
    exact inside
  have effect : ∀ᶠ k in atTop,
      ((run (k + 1)).state p).postnode2 = nodeAt translate (s.next (s.next p)) ∨
        moves k ≠ .heartBeat (s.next p) ∧
          ((run (k + 1)).state p).postnode2 = ((run k).state p).postnode2 := by
    filter_upwards [settled, execution.stays] with k now stays
    have here : p ∈ (run k).members := by
      rw [← now] at member
      exact member
    rw [← now] at closed ⊢
    exact (execution.safe k).run_postnode2 closed stays (execution.enabled k) (execution.ran k) here
  apply eventually_of_kept
  · filter_upwards [effect] with k change right
    rcases change with set | ⟨-, kept⟩
    · exact set
    · exact kept.trans right
  · have beats := (fair.heartBeats start _ live).and_eventually effect
    apply beats.mono
    rintro k ⟨sends, change⟩
    exact change.resolve_right fun kept => kept.1 sends

/-- Once the pointers have settled, every node comes to know its second successor too. -/
theorem IsExecution.circle_settles (execution : IsExecution translate run moves)
    (fair : IsFair run moves) {s : Pointers ℕ} (closed : s.IsClosed ringSize (ringKey translate))
    (settled : ∀ᶠ k in atTop, (run k).pointers = s) :
    ∀ᶠ k in atTop, IsCircle translate (run k) := by
  have second : ∀ᶠ k in atTop, ∀ p ∈ s.members,
      ((run k).state p).postnode2 = nodeAt translate (s.next (s.next p)) := by
    rw [eventually_all_finset]
    intro p member
    exact execution.postnode2_settles fair closed settled member
  filter_upwards [settled, second] with k now second
  have safe := execution.safe k
  subst now
  refine ⟨safe.ports, safe.ring.distinct, fun p live => (safe.known p live).self,
    fun p live => safe.knowsNeighbours closed live, fun p live => ?_⟩
  have next := closed.next p live
  exact ⟨_, _, next, closed.next _ next.1, second p live⟩

/-- In every fair execution, however many nodes join, every live node knows its successor, its
predecessor and its second successor from some time on. -/
theorem fair_execution_converges (translate : ℕ → UInt32) (run : ℕ → Network) (moves : ℕ → Move)
    (execution : IsExecution translate run moves) (fair : IsFair run moves) :
    ∀ᶠ k in atTop, IsCircle translate (run k) := by
  obtain ⟨s, closed, settled⟩ := execution.closes fair
  exact execution.circle_settles fair closed settled

/-- Two nodes that run their loops alternately. -/
theorem fair_execution_converges_pair : ∃ joined, join keyOf (nodeAt keyOf 0)
    (firstNetwork keyOf (nodeAt keyOf 0) 4000) 5000 4000 4000 = some joined ∧
      ∀ᶠ k in atTop, IsCircle keyOf (loops keyOf joined alternately k) := by
  obtain ⟨joined, ran, members, reachable⟩ := pair_reachable
  have live : ∀ k, alternately k ∈ joined.members := by
    rw [members]
    exact alternately_live
  have turns : ∀ p ∈ joined.members, ∃ᶠ k in atTop, alternately k = p := by
    rw [members]
    exact alternately_turns
  exact ⟨joined, ran, fair_execution_converges keyOf _ _ (loops_isExecution reachable live)
    (loops_isFair reachable live turns)⟩

end TinyTools.Chord
