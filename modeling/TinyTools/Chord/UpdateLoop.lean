import Mathlib.Data.Nat.Nth
import Mathlib.Order.Filter.Cofinite
import TinyTools.Chord.Executions

/-!
# The loop of every node

`updateFingerTable` refills the rows of the finger table one after the other, stabilises, notifies,
sends a heartbeat, and begins again. Every node runs this loop. Whatever the order in which the
nodes take their turns, the result is an execution, and a fair one when no node is left out forever.
-/

namespace TinyTools.Chord

open TinyTools.Lib Filter

variable (translate : ℕ → UInt32)

/-- What `fix_fingers` finds for a row. Lookups are nested no deeper than there are nodes. -/
def lookupAnswer (net : Network) (p : ℕ) (i : Fin 32) : ℕ :=
  (findClosestPort (find translate net net.members.card) (net.state p)
    (portNeededFor (net.state p) i)).getD 0

/-- The body of the loop in `updateFingerTable`, a phase at a time. -/
def phaseMove (net : Network) (p phase : ℕ) : Move :=
  if row : phase < 32 then .fixFingers p ⟨phase, row⟩ (lookupAnswer translate net p ⟨phase, row⟩)
  else if phase = 32 then .stabilize p
  else if phase = 33 then .notify p
  else .heartBeat p

/-- The phase a node is at, when it is told who has had the turns so far. -/
def phaseOf (who : ℕ → ℕ) (p k : ℕ) : ℕ := Nat.count (fun j => who j = p) k % 35

/-- The networks that the loops lead to. -/
def loops (net : Network) (who : ℕ → ℕ) : ℕ → Network
  | 0 => net
  | k + 1 =>
    let now := loops net who k
    ((phaseMove translate now (who k) (phaseOf who (who k) k)).run translate now).getD now

/-- The moves of the loops. -/
def loopMoves (net : Network) (who : ℕ → ℕ) (k : ℕ) : Move :=
  phaseMove translate (loops translate net who k) (who k) (phaseOf who (who k) k)

variable {translate} {net : Network} {who : ℕ → ℕ} {p q answer : ℕ} {hash : UInt32}
  {run : ℕ → Network}

/-- A lookup at one time. -/
theorem Route.looksThrough {k : ℕ} {path : List ℕ} (route : Route (run k) hash p path answer) :
    LooksThrough run hash k p answer k := by
  induction route with
  | answer ends => exact .answer le_rfl ends
  | forward next live rest ih => exact .forward le_rfl next live ih

/-- The lookup of a row ends and answers a live node. -/
theorem Network.IsSafe.lookupAnswer_route (safe : net.IsSafe translate) (live : p ∈ net.members)
    (i : Fin 32) : lookupAnswer translate net p i ∈ net.members ∧
      ∃ path, Route net (portNeededFor (net.state p) i) p path
        (lookupAnswer translate net p i) := by
  have ring := safe.isRing live
  have ports : HasPorts net :=
    ring.hasPorts fun q inside => safe.ports _ (safe.postnode_live inside)
  obtain ⟨path, answer, route⟩ := safe.liveFingers.route ring (portNeededFor (net.state p) i) live
  have once := route.nodup (safe.liveFingers.knownKeys ring) live
  have visited := route.live live
  have few : path.length ≤ net.members.card := by
    rw [← List.toFinset_card_of_nodup once]
    apply Finset.card_le_card
    intro q inside
    exact visited q (List.mem_toFinset.mp inside)
  have found := ((findClosestPort_route_iff translate ports live net.members.card).mpr
    ⟨path, route, by omega⟩).1
  have same : lookupAnswer translate net p i = answer := by
    rw [lookupAnswer, found, Option.getD_some]
  rw [same]
  exact ⟨safe.lookup_live _ p live answer found, path, route⟩

/-- Each phase is possible for a live node, and is no join. -/
theorem Network.IsSafe.phaseMove_enabled (safe : net.IsSafe translate)
    (live : p ∈ net.members) (phase : ℕ) :
    (phaseMove translate net p phase).Stays ∧
      (phaseMove translate net p phase).Enabled translate net := by
  unfold phaseMove
  split_ifs with row second third
  · exact ⟨trivial, live, (safe.lookupAnswer_route live ⟨phase, row⟩).1⟩
  · exact ⟨trivial, live⟩
  · exact ⟨trivial, live⟩
  · exact ⟨trivial, live⟩

/-- The loops make one move after another, and nobody leaves or joins. -/
theorem loops_step (reachable : Reachable translate net) (live : ∀ k, who k ∈ net.members) (k : ℕ) :
    (loops translate net who k).IsSafe translate ∧
      (loops translate net who k).members = net.members ∧
        (loopMoves translate net who k).run translate (loops translate net who k) =
          some (loops translate net who (k + 1)) := by
  have moves (k : ℕ) (safe : (loops translate net who k).IsSafe translate)
      (same : (loops translate net who k).members = net.members) :
      ∃ net', (loopMoves translate net who k).run translate (loops translate net who k) =
          some net' ∧ loops translate net who (k + 1) = net' ∧ net'.IsSafe translate ∧
            net'.members = net.members := by
    have here : who k ∈ (loops translate net who k).members := same ▸ live k
    obtain ⟨stays, enabled⟩ := safe.phaseMove_enabled here (phaseOf who (who k) k)
    obtain ⟨net', ran, safe'⟩ := safe.runs enabled
    have kept := (safe.run_pointers stays enabled ran).1
    refine ⟨net', ran, ?_, safe', kept.trans same⟩
    rw [loops, ran, Option.getD_some]
  have all : (loops translate net who k).IsSafe translate ∧
      (loops translate net who k).members = net.members := by
    induction k with
    | zero => exact ⟨reachable.safe, rfl⟩
    | succ k ih =>
      obtain ⟨net', -, next, safe, members⟩ := moves k ih.1 ih.2
      rw [next]
      exact ⟨safe, members⟩
  obtain ⟨net', ran, next, -, -⟩ := moves k all.1 all.2
  rw [next]
  exact ⟨all.1, all.2, ran⟩

/-- The loops of live nodes are an execution. -/
theorem loops_isExecution (reachable : Reachable translate net)
    (live : ∀ k, who k ∈ net.members) :
    IsExecution translate (loops translate net who) (loopMoves translate net who) where
  start := reachable
  enabled k := by
    obtain ⟨safe, members, -⟩ := loops_step reachable live k
    exact (safe.phaseMove_enabled (members ▸ live k) _).2
  ran k := (loops_step reachable live k).2.2

/-- A node that has turns again and again comes to every phase again and again. -/
theorem phaseOf_frequently (turns : ∃ᶠ k in atTop, who k = p) {phase : ℕ} (small : phase < 35) :
    ∃ᶠ k in atTop, who k = p ∧ phaseOf who (who k) k = phase := by
  have infinite : (Set.ofPred fun k => who k = p).Infinite :=
    Nat.frequently_atTop_iff_infinite.mp turns
  apply frequently_atTop.mpr
  intro start
  -- the turn at which so many rounds and phases are over
  have turn : who (Nat.nth (fun j => who j = p) (35 * start + phase)) = p :=
    Nat.nth_mem_of_infinite infinite _
  refine ⟨Nat.nth (fun j => who j = p) (35 * start + phase), ?_, turn, ?_⟩
  · have late : 35 * start + phase ≤ Nat.nth (fun j => who j = p) (35 * start + phase) :=
      (Nat.nth_strictMono infinite).le_apply
    omega
  · rw [turn, phaseOf, Nat.count_nth_of_infinite infinite, Nat.mul_add_mod,
      Nat.mod_eq_of_lt small]

/-- Loops in which every node has turns again and again are fair. -/
theorem loops_isFair (reachable : Reachable translate net) (live : ∀ k, who k ∈ net.members)
    (turns : ∀ p ∈ net.members, ∃ᶠ k in atTop, who k = p) :
    IsFair (loops translate net who) (loopMoves translate net who) := by
  have phases {k p : ℕ} (phase : ℕ) (inside : p ∈ (loops translate net who k).members)
      (small : phase < 35) : ∃ᶠ k in atTop, loopMoves translate net who k =
        phaseMove translate (loops translate net who k) p phase := by
    rw [(loops_step reachable live k).2.1] at inside
    apply (phaseOf_frequently (turns p inside) small).mono
    rintro k ⟨turn, same⟩
    rw [loopMoves, same, turn]
  refine ⟨fun k p inside => ?_, fun k p inside => ?_, fun k p inside => ?_⟩
  · exact phases 32 inside (by decide)
  · exact phases 33 inside (by decide)
  · exact phases 34 inside (by decide)

/-- Loops in which every node has turns again and again refresh the fingers. -/
theorem loops_refreshesFingers (reachable : Reachable translate net)
    (live : ∀ k, who k ∈ net.members) (turns : ∀ p ∈ net.members, ∃ᶠ k in atTop, who k = p) :
    RefreshesFingers (loops translate net who) (loopMoves translate net who) where
  refills k p inside i := by
    rw [(loops_step reachable live k).2.1] at inside
    apply (phaseOf_frequently (turns p inside) (i.isLt.trans (by decide))).mono
    rintro k ⟨turn, same⟩
    exact ⟨_, by rw [loopMoves, same, turn, phaseMove, dif_pos i.isLt]⟩
  looked start := by
    filter_upwards [eventually_ge_atTop start] with k late
    intro p i answer refill
    obtain ⟨safe, members, -⟩ := loops_step reachable live k
    refine ⟨k, late, ?_⟩
    unfold loopMoves phaseMove at refill
    split_ifs at refill with row second third
    · obtain ⟨rfl, rfl, rfl⟩ := Move.fixFingers.inj refill
      obtain ⟨-, path, route⟩ := safe.lookupAnswer_route (members ▸ live k) ⟨_, row⟩
      exact route.looksThrough

/-! ## Two nodes -/

/-- Two nodes have turns alternately. -/
def alternately (k : ℕ) : ℕ := if k % 2 = 0 then 4000 else 5000

/-- A second node joins the first one. -/
theorem pair_reachable : ∃ joined, join keyOf (nodeAt keyOf 0)
    (firstNetwork keyOf (nodeAt keyOf 0) 4000) 5000 4000 4000 = some joined ∧
      joined.members = {5000, 4000} ∧ Reachable keyOf joined := by
  have first : Reachable keyOf (firstNetwork keyOf (nodeAt keyOf 0) 4000) :=
    .first (nodeAt keyOf 0) (by decide)
  obtain ⟨joined, ran, -⟩ : ∃ joined, join keyOf (nodeAt keyOf 0) _ 5000 4000 4000 = some joined ∧
      joined.IsSafe keyOf :=
    first.safe.join (nodeAt keyOf 0) (by decide) (by decide) (by decide) (by decide) (by decide)
  have next := first.step (.join (by decide) (by decide) (by decide) (by decide) (by decide) ran)
  refine ⟨joined, ran, ?_, next⟩
  obtain rfl := Option.some.inj ran
  rfl

/-- Both are live. -/
theorem alternately_live (k : ℕ) : alternately k ∈ ({5000, 4000} : Finset ℕ) := by
  unfold alternately
  split_ifs <;> simp

/-- Neither is left out. -/
theorem alternately_turns : ∀ p ∈ ({5000, 4000} : Finset ℕ), ∃ᶠ k in atTop, alternately k = p := by
  intro p inside
  apply frequently_atTop.mpr
  intro start
  rcases Finset.mem_insert.mp inside with rfl | rest
  · exact ⟨2 * start + 1, by omega, if_neg (by omega)⟩
  · rw [Finset.mem_singleton.mp rest]
    exact ⟨2 * start, by omega, if_pos (by omega)⟩

end TinyTools.Chord
