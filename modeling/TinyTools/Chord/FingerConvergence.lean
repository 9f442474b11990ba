import TinyTools.Chord.Convergence

/-!
# Convergence of the fingers

On a closed ring the first row of a finger table is refilled without asking anyone. Once every first
row is right, every lookup is, although lookups go from node to node while other exchanges take
place. So from some time on all fingers are right.
-/

namespace TinyTools.Chord

open TinyTools.Lib Filter

variable (translate : ℕ → UInt32)

/-- The starts of a node's fingers are its key and a power of two further on. -/
def NodeState.HasStarts (p : ℕ) (s : NodeState) : Prop :=
  ∀ i : Fin 32, (s.finTb i).start = translate p + UInt32.ofNat (2 ^ i.val)

variable {translate} {net net' : Network} {move : Move} {p q r f answer : ℕ} {hash : UInt32}
  {run : ℕ → Network} {moves : ℕ → Move}

/-! ## Starts -/

/-- No message changes the fingers. -/
theorem chordNode_finTb {closest : UInt32 → Option ℕ} {s s' : NodeState} {message : Message}
    {reply : Bytes} (handled : chordNode translate closest s message = some (s', reply)) :
    s'.finTb = s.finTb := by
  cases message with
  | join port =>
    simp only [chordNode, handleJoin] at handled
    split_ifs at handled
    · obtain ⟨r, -, same⟩ := Option.bind_eq_some_iff.mp handled
      obtain ⟨rfl, -⟩ := Prod.mk.inj (Option.some.inj same)
      rfl
    · obtain ⟨result, -, same⟩ := Option.bind_eq_some_iff.mp handled
      obtain ⟨rfl, -⟩ := Prod.mk.inj (Option.some.inj same)
      rfl
  | find hash =>
    obtain ⟨result, -, same⟩ := Option.map_eq_some_iff.mp handled
    obtain ⟨rfl, -⟩ := Prod.mk.inj same
    rfl
  | stable port =>
    obtain ⟨rfl, -⟩ := Prod.mk.inj (Option.some.inj handled)
    rfl
  | notify port =>
    obtain ⟨rfl, -⟩ := Prod.mk.inj (Option.some.inj handled)
    rcases handleNotify_cases translate s port with same | same <;> rw [same]
  | keepAlive port =>
    obtain ⟨rfl, -⟩ := Prod.mk.inj (Option.some.inj handled)
    rfl
  | resetPre =>
    obtain ⟨rfl, -⟩ := Prod.mk.inj (Option.some.inj handled)
    rfl

/-- A refilled row keeps its start. -/
theorem NodeState.HasStarts.fixFinger {s : NodeState} (starts : s.HasStarts translate p)
    (i : Fin 32) (answer : ℕ) : (Chord.fixFinger translate s i answer).HasStarts translate p := by
  intro j
  by_cases here : j = i
  · simp only [Chord.fixFinger, here, Function.update_self]
    exact starts i
  · simp only [Chord.fixFinger, Function.update_of_ne here]
    exact starts j

/-- Every node keeps the starts that it begins with. -/
theorem Reachable.hasStarts (reachable : Reachable translate net) :
    ∀ p ∈ net.members, (net.state p).HasStarts translate p := by
  induction reachable with
  | first garbage valid =>
    intro p live i
    rw [Finset.mem_singleton.mp live]
    rfl
  | @step net net' before next ih =>
    have safe := before.safe
    -- an exchange replaces one node by another with the same starts
    have replaced {q : ℕ} {s : NodeState} (same : q ∈ net.members → s.HasStarts translate q) :
        ∀ p ∈ net.members, ((net.set q s).state p).HasStarts translate p := by
      intro p live
      by_cases here : p = q
      · rw [here, Network.set_state_self]
        exact same (here ▸ live)
      · rw [net.set_state_of_ne here]
        exact ih p live
    cases next with
    | @join _ garbage n m answer port fresh apart live answered ran =>
      obtain ⟨⟨asked, reply⟩, delivered, enrolled⟩ := Option.bind_eq_some_iff.mp ran
      obtain ⟨received, -, handled⟩ := Option.bind_eq_some_iff.mp delivered
      obtain ⟨⟨s, text⟩, told, same⟩ := Option.bind_eq_some_iff.mp handled
      obtain ⟨rfl, -⟩ := Prod.mk.inj (Option.some.inj same)
      obtain rfl := Option.some.inj enrolled
      have kept := chordNode_finTb told
      intro p inside
      by_cases here : p = n
      · subst here
        intro i
        simp only [Network.enroll, Function.update_self]
        rfl
      · simp only [Network.enroll, Function.update_of_ne here]
        refine replaced (fun member i => ?_) p (Finset.mem_of_mem_insert_of_ne inside here)
        rw [kept]
        exact ih m member i
    | @stabilize _ p live ran =>
      rcases safe.stabilize_effect live with ⟨x, -, same⟩ | ⟨-, same⟩
      · obtain rfl := Option.some.inj (ran.symm.trans same)
        exact replaced (ih p)
      · obtain rfl := Option.some.inj (ran.symm.trans same)
        exact ih
    | @notify _ p live ran =>
      rcases safe.notify_effect live with ⟨-, same⟩ | ⟨-, same⟩
      · obtain rfl := Option.some.inj (ran.symm.trans same)
        exact replaced (ih _)
      · obtain rfl := Option.some.inj (ran.symm.trans same)
        exact ih
    | @heartBeat _ p live ran =>
      rcases safe.heartBeat_effect live with ⟨q, -, same⟩ | ⟨-, same⟩
      · obtain rfl := Option.some.inj (ran.symm.trans same)
        exact replaced (ih q)
      · obtain rfl := Option.some.inj (ran.symm.trans same)
        exact ih
    | fixFingers live answered =>
      exact replaced fun member => (ih _ member).fixFinger _ _

/-! ## One node of a closed ring -/

/-- A lookup of the next position, or of any when the first row is right, is answered with the first
node at or after the hash, unless it wraps to the least key. -/
theorem Answers.isFirst_of_row (ring : IsRing net) (postnodes : CorrectPostnodes net)
    (live : p ∈ net.members) (regular : ¬ WrapsToLeast net p hash)
    (row : ((net.state p).finTb 0).nodeInfo = (net.state p).postnode ∨
      clockwise ringSize (net.position p) hash.toNat ≤ 1)
    (ends : Answers net hash p answer) :
    IsFirst ringSize net.position net.members hash.toNat answer := by
  have bound : ∀ r ∈ net.members, net.position r < ringSize := fun r _ => net.position_lt r
  have hp := net.position_lt p
  have hh : hash.toNat < ringSize := hash.toNat_lt
  obtain ⟨s, next, same⟩ := postnodes p live
  have hs := net.position_lt s
  have testsIff := successorTests_iff (net.state p).localNode.key (net.state p).postnode.key hash
  rw [same] at testsIff
  change _ ↔ hash.toNat ≠ net.position p ∧ clockwise ringSize (net.position p) hash.toNat ≤
    clockwise ringSize (net.position p) (net.position s) ∧
      ¬ (net.position s < net.position p ∧ hash.toNat = net.position s) at testsIff
  rcases findClosestPort_cases (fun _ _ => none) (net.state p) hash with
    ⟨tests, found⟩ | ⟨tests, passed, found⟩ | ⟨-, i, -, found⟩
  · rw [Answers, found, same, ring.self s next.1] at ends
    rw [same] at tests
    obtain ⟨apart, upTo, -⟩ := testsIff.mp tests
    rw [← Option.some.inj ends]
    apply next.isFirst bound hp hh apart
    have moved := clockwise_pos hp apart.symm
    rwa [around_of_ne]
    rintro equal
    rw [← equal, clockwise_self] at upTo
    omega
  · have self : (net.state p).localNode.port = p := ring.self p live
    rw [Answers, found, self] at ends
    rw [← Option.some.inj ends]
    by_cases here : net.position p = hash.toNat
    · exact isFirst_of_key_eq live here
    by_cases alone : net.position s = net.position p
    · have every := next.alone bound live alone
      exact ⟨live, fun r inside => by rw [every r inside]⟩
    -- a hash past the successor is past the first finger, too
    exfalso
    rw [same, testsIff, not_and_or, not_and_or] at tests
    rcases tests with at_ | past | missed
    · exact at_ (Ne.symm here)
    · have moved := clockwise_pos hp (Ne.symm alone)
      rcases row with first | near
      · have outside := scanFingers_none passed 0
        rw [← Bool.not_eq_true, fingerInside_iff, first, same] at outside
        exact outside ⟨alone, Nat.lt_of_not_le past⟩
      · omega
    · obtain ⟨wraps, least⟩ := not_not.mp missed
      exact regular ⟨⟨s, next.1, least.symm⟩,
        fun r inside => least ▸ next.least bound hp wraps r inside, here⟩
  · rw [Answers, found] at ends
    cases ends

/-! ## A network at rest -/

/-- The first node at or after a hash, by its position or by the key of its port. -/
theorem Network.IsSafe.isFirst_iff (safe : net.IsSafe translate) {position : ℕ} :
    IsFirst ringSize net.position net.members position q ↔
      IsFirst ringSize (ringKey translate) net.members position q := by
  constructor
  · rintro ⟨live, nearest⟩
    refine ⟨live, fun r member => ?_⟩
    rw [← safe.position_eq live, ← safe.position_eq member]
    exact nearest r member
  · rintro ⟨live, nearest⟩
    refine ⟨live, fun r member => ?_⟩
    rw [safe.position_eq live, safe.position_eq member]
    exact nearest r member

/-- The successors of a closed ring are correct. -/
theorem Network.IsSafe.correctPostnodes (safe : net.IsSafe translate)
    (closed : net.pointers.IsClosed ringSize (ringKey translate)) : CorrectPostnodes net := by
  intro p live
  obtain ⟨member, nearest⟩ := closed.next p live
  refine ⟨net.pointers.next p, ⟨member, fun r inside => ?_⟩, ?_⟩
  · rw [safe.position_eq live, safe.position_eq member, safe.position_eq inside]
    exact nearest r inside
  · rw [(safe.records live).2]
    exact (safe.node_eq member).symm

/-- A network whose pointers are those given, with the starts that nodes begin with. -/
structure Network.IsAtRest (translate : ℕ → UInt32) (s : Pointers ℕ) (net : Network) : Prop where
  /-- It is safe. -/
  safe : net.IsSafe translate
  /-- Its pointers. -/
  pointers : net.pointers = s
  /-- Its starts. -/
  starts : ∀ p ∈ net.members, (net.state p).HasStarts translate p

variable {s : Pointers ℕ} {start j k : ℕ} {i : Fin 32}

/-- The live nodes are those of the pointers. -/
theorem Network.IsAtRest.members (rest : net.IsAtRest translate s) : net.members = s.members :=
  congrArg Pointers.members rest.pointers

/-- The position right after a node is met first where the node's successor is met next. -/
theorem isFirst_succ_iff {size : ℕ} {key : ℕ → ℕ} {members : Finset ℕ} {position : ℕ}
    (bound : ∀ p ∈ members, key p < size) (below : position < size) :
    IsFirst size key members ((position + 1) % size) q ↔ IsNext size key members position q := by
  constructor
  · rintro ⟨live, nearest⟩
    refine ⟨live, fun r member => ?_⟩
    have closer := nearest r member
    have toFirst := clockwise_succ below (bound q live)
    have toOther := clockwise_succ below (bound r member)
    omega
  · rintro ⟨live, nearest⟩
    refine ⟨live, fun r member => ?_⟩
    have closer := nearest r member
    have toFirst := clockwise_succ below (bound q live)
    have toOther := clockwise_succ below (bound r member)
    omega

/-! ## Lookups while other exchanges take place -/

/-- A lookup that begins at rest answers the first node at or after a hash above the least key, when
it is for the next position or every first row is right. -/
theorem LooksThrough.isFirst (closed : s.IsClosed ringSize (ringKey translate))
    (rest : ∀ j ≥ start, (run j).IsAtRest translate s)
    (below : ∃ r ∈ s.members, ringKey translate r < hash.toNat)
    (lookup : LooksThrough run hash j p answer k) (after : start ≤ j) (live : p ∈ s.members)
    (rows : clockwise ringSize (ringKey translate p) hash.toNat ≤ 1 ∨
      ∀ j ≥ start, ∀ p ∈ s.members,
        (((run j).state p).finTb 0).nodeInfo = nodeAt translate (s.next p)) :
    IsFirst ringSize (ringKey translate) s.members hash.toNat answer := by
  induction lookup with
  | @answer j k p answer before ends =>
    have now := rest j after
    have member : p ∈ (run j).members := now.members ▸ live
    have ring := now.pointers ▸ closed
    have regular : ¬ WrapsToLeast (run j) p hash := by
      rintro ⟨-, least, -⟩
      obtain ⟨r, inside, less⟩ := below
      rw [← now.members] at inside
      have atLeast := least r inside
      rw [now.safe.position_eq inside] at atLeast
      omega
    have row : (((run j).state p).finTb 0).nodeInfo = ((run j).state p).postnode ∨
        clockwise ringSize ((run j).position p) hash.toNat ≤ 1 := by
      rcases rows with near | right
      · rw [now.safe.position_eq member]
        exact Or.inr near
      · rw [right j after p live, (now.safe.records member).2, now.pointers]
        exact Or.inl rfl
    have first := ends.isFirst_of_row (now.safe.isRing member) (now.safe.correctPostnodes ring)
      member regular row
    rw [now.safe.isFirst_iff, now.members] at first
    exact first
  | @forward j j' k p f answer before next received later ih =>
    have now := rest j after
    have member : p ∈ (run j).members := now.members ▸ live
    have ring := now.safe.isRing member
    have handed := now.safe.liveFingers.forwards ring member next
    have closer := (now.safe.liveFingers.knownKeys ring).closer member next handed
    rw [now.safe.position_eq member, now.safe.position_eq handed] at closer
    apply ih (after.trans before) (now.members ▸ handed)
    exact rows.imp_left fun near => by omega

/-! ## Rows -/

/-- A row names the first node at or after its point of the ring. -/
def RowRight (translate : ℕ → UInt32) (s : Pointers ℕ) (net : Network) (p : ℕ) (i : Fin 32) :
    Prop :=
  ∃ q, IsFirst ringSize (ringKey translate) s.members (ringKey translate p + 2 ^ i.val) q ∧
    ((net.state p).finTb i).nodeInfo = nodeAt translate q

/-- A right first row names the successor. -/
theorem RowRight.first (right : RowRight translate s net p 0) (rest : net.IsAtRest translate s)
    (closed : s.IsClosed ringSize (ringKey translate)) (live : p ∈ s.members)
    (lower : ringKey translate p < 2 ^ 31) :
    ((net.state p).finTb 0).nodeInfo = nodeAt translate (s.next p) := by
  obtain ⟨q, nearest, named⟩ := right
  have below : ringKey translate p + 1 < ringSize :=
    (Nat.succ_lt_succ lower).trans (by decide)
  have next : IsNext ringSize (ringKey translate) s.members (ringKey translate p) q := by
    apply (isFirst_succ_iff (fun r _ => ringKey_lt r) (ringKey_lt p)).mp
    rw [Nat.mod_eq_of_lt below]
    exact nearest
  have key := next.key_eq (fun r _ => ringKey_lt r) (ringKey_lt p) (closed.next p live)
  have distinct := rest.pointers ▸ rest.safe.ring.distinct
  rwa [← distinct next.1 (closed.next p live).1 key]

/-- On the lower half of the ring the start of a row is a power of two further on. -/
theorem Network.IsAtRest.start_eq (rest : net.IsAtRest translate s) (live : p ∈ s.members)
    (lower : ringKey translate p < 2 ^ 31) (i : Fin 32) :
    (portNeededFor (net.state p) i).toNat = ringKey translate p + 2 ^ i.val := by
  have power : 2 ^ i.val ≤ 2 ^ 31 := Nat.pow_le_pow_right (by decide) (by omega)
  rw [portNeededFor, rest.starts p (rest.members ▸ live) i, UInt32.toNat_add, UInt32.toNat_ofNat']
  unfold ringKey at *
  generalize 2 ^ i.val = distance at *
  omega

/-- A row that is refilled with right answers only is right from some time on. -/
theorem IsExecution.row_settles (execution : IsExecution translate run moves)
    (closed : s.IsClosed ringSize (ringKey translate))
    (rest : ∀ᶠ k in atTop, (run k).IsAtRest translate s)
    (refills : ∃ᶠ k in atTop, ∃ answer, moves k = .fixFingers p i answer)
    (right : ∀ᶠ k in atTop, ∀ answer, moves k = .fixFingers p i answer →
      IsFirst ringSize (ringKey translate) s.members (ringKey translate p + 2 ^ i.val) answer) :
    ∀ᶠ k in atTop, RowRight translate s (run k) p i := by
  have refilled {k answer : ℕ} (refill : moves k = .fixFingers p i answer)
      (first : IsFirst ringSize (ringKey translate) s.members (ringKey translate p + 2 ^ i.val)
        answer) : RowRight translate s (run (k + 1)) p i := by
    have ran := execution.ran k
    rw [refill] at ran
    obtain same := Option.some.inj ran
    refine ⟨answer, first, ?_⟩
    rw [← same, Chord.fixFingers, Network.set_state_self]
    simp only [fixFinger, Function.update_self]
  apply eventually_of_kept
  · filter_upwards [rest, execution.stays, right] with k now stays answered already
    have ring := now.pointers ▸ closed
    rcases now.safe.run_closed ring stays (execution.enabled k) (execution.ran k) with
      ⟨-, same⟩ | ⟨q, -, -, same⟩ | ⟨q, i', answer, refill, same⟩
    · rwa [same]
    · obtain ⟨first, nearest, named⟩ := already
      refine ⟨first, nearest, ?_⟩
      rw [same]
      by_cases here : p = q
      · rw [here, Network.set_state_self, ← here]
        exact named
      · rw [(run k).set_state_of_ne here]
        exact named
    · by_cases here : p = q
      · subst here
        by_cases row : i = i'
        · subst row
          exact refilled refill (answered answer refill)
        · obtain ⟨first, nearest, named⟩ := already
          refine ⟨first, nearest, ?_⟩
          rw [same, Chord.fixFingers, Network.set_state_self]
          simp only [fixFinger, Function.update_of_ne row]
          exact named
      · obtain ⟨first, nearest, named⟩ := already
        refine ⟨first, nearest, ?_⟩
        rw [same, Chord.fixFingers, (run k).set_state_of_ne here]
        exact named
  · apply (refills.and_eventually right).mono
    rintro k ⟨⟨answer, refill⟩, answered⟩
    exact refilled refill (answered answer refill)

/-- Refreshes answer right from some time on, for the first row and, when every first row is right,
for all. -/
theorem RefreshesFingers.right (refreshes : RefreshesFingers run moves)
    (closed : s.IsClosed ringSize (ringKey translate))
    (rest : ∀ j ≥ start, (run j).IsAtRest translate s) (live : p ∈ s.members)
    (lower : ringKey translate p < 2 ^ 31) (i : Fin 32)
    (rows : i = 0 ∨ ∀ j ≥ start, ∀ p ∈ s.members,
      (((run j).state p).finTb 0).nodeInfo = nodeAt translate (s.next p)) :
    ∀ᶠ k in atTop, ∀ answer, moves k = .fixFingers p i answer →
      IsFirst ringSize (ringKey translate) s.members (ringKey translate p + 2 ^ i.val) answer := by
  filter_upwards [refreshes.looked start] with k looked
  intro answer refill
  obtain ⟨j, after, lookup⟩ := looked p i answer refill
  have point := (rest j after).start_eq live lower i
  rw [← point]
  refine lookup.isFirst closed rest ⟨p, live, ?_⟩ after live (rows.imp_left fun first => ?_)
  · rw [point]
    exact Nat.lt_add_of_pos_right (Nat.two_pow_pos _)
  · rw [point, first]
    unfold clockwise
    rw [if_pos (Nat.le_add_right ..), Nat.add_sub_cancel_left]
    exact le_rfl

/-- In an execution that refreshes its fingers every row is right from some time on. -/
theorem IsExecution.rows_settle (execution : IsExecution translate run moves)
    (refreshes : RefreshesFingers run moves) (closed : s.IsClosed ringSize (ringKey translate))
    (rest : ∀ᶠ k in atTop, (run k).IsAtRest translate s)
    (lower : ∀ p ∈ s.members, ringKey translate p < 2 ^ 31) :
    ∀ᶠ k in atTop, ∀ p ∈ s.members, ∀ i, RowRight translate s (run k) p i := by
  have refills : ∀ p ∈ s.members, ∀ i, ∃ᶠ k in atTop, ∃ answer,
      moves k = .fixFingers p i answer := by
    obtain ⟨k, now⟩ := rest.exists
    intro p live i
    exact refreshes.refills k p (now.members ▸ live) i
  obtain ⟨start, always⟩ := eventually_atTop.mp rest
  -- the first rows need nobody else, and every other row needs the first ones
  have first : ∀ᶠ k in atTop, ∀ p ∈ s.members,
      (((run k).state p).finTb 0).nodeInfo = nodeAt translate (s.next p) := by
    rw [eventually_all_finset]
    intro p live
    have answers := refreshes.right closed always live (lower p live) 0 (Or.inl rfl)
    filter_upwards [rest, execution.row_settles closed rest (refills p live 0) answers] with k now
      right
    exact right.first now closed live (lower p live)
  obtain ⟨later, rows⟩ := eventually_atTop.mp (first.and rest)
  rw [eventually_all_finset]
  intro p live
  rw [eventually_all]
  intro i
  have answers := refreshes.right closed (fun j after => (rows j after).2) live (lower p live) i
    (Or.inr fun j after => (rows j after).1)
  exact execution.row_settles closed rest (refills p live i) answers

/-- A network at rest whose rows are right is settled. -/
theorem Network.IsAtRest.isSettled (rest : net.IsAtRest translate s)
    (closed : s.IsClosed ringSize (ringKey translate))
    (lower : ∀ p ∈ s.members, ringKey translate p < 2 ^ 31)
    (rows : ∀ p ∈ s.members, ∀ i, RowRight translate s net p i) : IsSettled net := by
  have members := rest.members
  obtain ⟨cycle, one⟩ := rest.safe.ring.ring
  obtain ⟨first, inside⟩ := one.inhabited
  refine ⟨rest.safe.isRing (one.inside inside),
    rest.safe.correctPostnodes (rest.pointers ▸ closed), ?_⟩
  intro p live i
  obtain ⟨q, nearest, named⟩ := rows p (members ▸ live) i
  have power : 2 ^ i.val ≤ 2 ^ 31 := Nat.pow_le_pow_right (by decide) (by omega)
  have below := lower p (members ▸ live)
  refine ⟨q, ?_, ?_⟩
  · rw [rest.safe.isFirst_iff, rest.safe.position_eq live, members, Nat.mod_eq_of_lt]
    · exact nearest
    · unfold ringSize
      omega
  · rw [named]
    exact (rest.safe.node_eq (members ▸ nearest.1)).symm

/-- In every fair execution on the lower half of the ring that refreshes its fingers, however many
nodes join and whatever happens while a lookup is under way, all successors and all fingers are
right from some time on, and a lookup that begins then, and asks node after node while the execution
goes on, answers the first node at or after any hash above the least key. -/
theorem fair_execution_settles (translate : ℕ → UInt32) (run : ℕ → Network) (moves : ℕ → Move)
    (execution : IsExecution translate run moves) (fair : IsFair run moves)
    (refreshes : RefreshesFingers run moves)
    (lower : ∀ k, ∀ p ∈ (run k).members, (translate p).toNat < 2 ^ 31) :
    ∀ᶠ k in atTop, IsSettled (run k) ∧ ∀ p ∈ (run k).members, ∀ hash answer later,
      (∃ r ∈ (run k).members, (run k).position r < hash.toNat) →
        LooksThrough run hash k p answer later →
          IsFirst ringSize (run k).position (run k).members hash.toNat answer := by
  obtain ⟨s, closed, settled⟩ := execution.closes fair
  have rest : ∀ᶠ k in atTop, (run k).IsAtRest translate s := by
    filter_upwards [settled] with k now
    exact ⟨execution.safe k, now, (execution.reachable k).hasStarts⟩
  have lower' : ∀ p ∈ s.members, ringKey translate p < 2 ^ 31 := by
    obtain ⟨k, now⟩ := rest.exists
    intro p live
    exact lower k p (now.members ▸ live)
  obtain ⟨start, always⟩ :=
    eventually_atTop.mp (rest.and (execution.rows_settle refreshes closed rest lower'))
  apply eventually_atTop.mpr
  refine ⟨start, fun k after => ?_⟩
  obtain ⟨now, rows⟩ := always k after
  refine ⟨now.isSettled closed lower' rows, fun p live hash answer later below lookup => ?_⟩
  rw [now.safe.isFirst_iff, now.members]
  obtain ⟨r, member, less⟩ := below
  rw [now.safe.position_eq member] at less
  refine lookup.isFirst closed (fun j later => (always j later).1) ⟨r, now.members ▸ member, less⟩
    after (now.members ▸ live) (Or.inr fun j later q inside => ?_)
  obtain ⟨rest', rows'⟩ := always j later
  exact (rows' q inside 0).first rest' closed inside (lower' q inside)

/-- Two nodes that run their loops alternately. -/
theorem fair_execution_settles_pair : ∃ joined, join keyOf (nodeAt keyOf 0)
    (firstNetwork keyOf (nodeAt keyOf 0) 4000) 5000 4000 4000 = some joined ∧
      ∀ᶠ k in atTop, IsSettled (loops keyOf joined alternately k) ∧
        ∀ p ∈ (loops keyOf joined alternately k).members, ∀ hash answer later,
          (∃ r ∈ (loops keyOf joined alternately k).members,
            (loops keyOf joined alternately k).position r < hash.toNat) →
          LooksThrough (loops keyOf joined alternately) hash k p answer later →
            IsFirst ringSize (loops keyOf joined alternately k).position
              (loops keyOf joined alternately k).members hash.toNat answer := by
  obtain ⟨joined, ran, members, reachable⟩ := pair_reachable
  have live : ∀ k, alternately k ∈ joined.members := by
    rw [members]
    exact alternately_live
  have turns : ∀ p ∈ joined.members, ∃ᶠ k in atTop, alternately k = p := by
    rw [members]
    exact alternately_turns
  refine ⟨joined, ran, fair_execution_settles keyOf _ _ (loops_isExecution reachable live)
    (loops_isFair reachable live turns) (loops_refreshesFingers reachable live turns) ?_⟩
  intro k p _
  unfold keyOf
  split_ifs <;> decide

/-- Nodes on the lower half of the ring that run their loops, with turns in whatever order that
leaves no node out forever, settle: from some time on all nodes know their neighbours and their
fingers, and every lookup is answered right unless it wraps to the least key. -/
theorem loops_settle (translate : ℕ → UInt32) (net : Network) (reachable : Reachable translate net)
    (lower : ∀ p ∈ net.members, (translate p).toNat < 2 ^ 31) (who : ℕ → ℕ)
    (live : ∀ k, who k ∈ net.members) (turns : ∀ p ∈ net.members, ∃ᶠ k in atTop, who k = p) :
    ∀ᶠ k in atTop, (loops translate net who k).members = net.members ∧
      IsCircle translate (loops translate net who k) ∧ IsSettled (loops translate net who k) ∧
        ∀ p ∈ net.members, ∀ hash, LookupCorrect translate (loops translate net who k) p hash ↔
          ¬ WrapsToLeast (loops translate net who k) p hash := by
  have execution := loops_isExecution reachable live
  have fair := loops_isFair reachable live turns
  obtain ⟨s, closed, settled⟩ := execution.closes fair
  have circle := execution.circle_settles fair closed settled
  have rest : ∀ᶠ k in atTop, (loops translate net who k).IsAtRest translate s := by
    filter_upwards [settled] with k now
    exact ⟨execution.safe k, now, (execution.reachable k).hasStarts⟩
  have lower' : ∀ p ∈ s.members, ringKey translate p < 2 ^ 31 := by
    obtain ⟨k, now⟩ := rest.exists
    rw [← now.members, (loops_step reachable live k).2.1]
    exact lower
  have refreshes := loops_refreshesFingers reachable live turns
  have rows := execution.rows_settle refreshes closed rest lower'
  filter_upwards [circle, rest, rows] with k circle now rows
  have members := (loops_step reachable live k).2.1
  have whole := now.isSettled closed lower' rows
  refine ⟨members, circle, whole, fun p inside hash => ?_⟩
  rw [← members] at inside
  constructor
  · intro correct wraps
    exact whole.not_lookupCorrect inside wraps correct
  · intro regular
    exact whole.lookup hash _ p inside rfl regular

/-- Two nodes that run their loops alternately. -/
theorem loops_settle_pair : ∃ joined, join keyOf (nodeAt keyOf 0)
    (firstNetwork keyOf (nodeAt keyOf 0) 4000) 5000 4000 4000 = some joined ∧
      ∀ᶠ k in atTop, (loops keyOf joined alternately k).members = joined.members ∧
        IsCircle keyOf (loops keyOf joined alternately k) ∧
          IsSettled (loops keyOf joined alternately k) ∧ ∀ p ∈ joined.members, ∀ hash,
            LookupCorrect keyOf (loops keyOf joined alternately k) p hash ↔
              ¬ WrapsToLeast (loops keyOf joined alternately k) p hash := by
  obtain ⟨joined, ran, members, reachable⟩ := pair_reachable
  refine ⟨joined, ran, loops_settle keyOf joined reachable ?_ alternately ?_ ?_⟩
  · intro p _
    unfold keyOf
    split_ifs <;> decide
  · rw [members]
    exact alternately_live
  · rw [members]
    exact alternately_turns

end TinyTools.Chord
