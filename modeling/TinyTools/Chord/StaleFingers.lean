import Mathlib.Logic.Relation
import TinyTools.Chord.Routing

/-!
# Lookups on stale fingers

With correct successors a lookup is right as long as the fingers lead it to the node in front of the
hash. Where they do not, the node that has no finger left before the hash answers itself instead of
asking its successor, and is wrong unless it is the hash's successor after all.
-/

namespace TinyTools.Chord

open TinyTools.Lib Relation

/-- The finger a scan stops at. -/
def Follows (net : Network) (hash : UInt32) (p f : ℕ) : Prop :=
  ∃ i, scanFingers (net.state p) hash = some i ∧ ((net.state p).finTb i).nodeInfo.port = f

/-- A live node lies strictly between a node and the hash. -/
def InFront (net : Network) (hash : UInt32) (p r : ℕ) : Prop :=
  r ∈ net.members ∧ net.position r ≠ net.position p ∧
    clockwise ringSize (net.position p) (net.position r) <
      clockwise ringSize (net.position p) hash.toNat

/-- Following fingers leads to a node that has none before the hash although a live node lies there,
and that is not the hash's successor. -/
def Strands (net : Network) (p : ℕ) (hash : UInt32) : Prop :=
  ∃ e, ReflTransGen (Follows net hash) p e ∧ scanFingers (net.state e) hash = none ∧
    (∃ r, InFront net hash e r) ∧ ¬ IsFirst ringSize net.position net.members hash.toNat e

variable {translate : ℕ → UInt32} {net : Network} {hash : UInt32} {p q f answer : ℕ}

/-- A node without fingers before the hash is the end of every chain from it. -/
theorem strands_of_none (stopped : scanFingers (net.state p) hash = none) :
    Strands net p hash ↔ (∃ r, InFront net hash p r) ∧
      ¬ IsFirst ringSize net.position net.members hash.toNat p := by
  constructor
  · rintro ⟨e, chain, -, front⟩
    rcases ReflTransGen.cases_head chain with here | ⟨f, ⟨i, scan, -⟩, -⟩
    · rwa [here]
    · rw [stopped] at scan
      cases scan
  · intro front
    exact ⟨p, .refl, stopped, front⟩

/-- Following one finger does not change where the chain ends. -/
theorem strands_of_follows (next : Follows net hash p f) :
    Strands net p hash ↔ Strands net f hash := by
  constructor
  · rintro ⟨e, chain, stopped, front⟩
    rcases ReflTransGen.cases_head chain with here | ⟨g, ⟨j, scan', port'⟩, rest⟩
    · obtain ⟨i, scan, -⟩ := next
      rw [here, stopped] at scan
      cases scan
    · obtain ⟨i, scan, port⟩ := next
      have same := Option.some.inj (scan.symm.trans scan')
      rw [← same, port] at port'
      rw [← port'] at rest
      exact ⟨e, rest, stopped, front⟩
  · rintro ⟨e, chain, rest⟩
    exact ⟨e, .head next chain, rest⟩

/-- A hash that is no key is accepted by the successor tests exactly when no live node lies before
it, on a ring of more than one node. -/
theorem CorrectPostnodes.tests_iff (postnodes : CorrectPostnodes net) (live : p ∈ net.members)
    (apart : ∀ r ∈ net.members, net.position r ≠ hash.toNat) :
    ∃ s, IsNext ringSize net.position net.members (net.position p) s ∧
      (net.state p).postnode = net.node s ∧
        (successorTests (net.state p).localNode.key (net.state p).postnode.key hash ↔
          clockwise ringSize (net.position p) hash.toNat ≤
            clockwise ringSize (net.position p) (net.position s)) := by
  obtain ⟨s, next, same⟩ := postnodes p live
  refine ⟨s, next, same, ?_⟩
  rw [successorTests_iff, same]
  constructor
  · intro tests
    exact tests.2.1
  · intro upTo
    exact ⟨(apart p live).symm, upTo, fun wraps => apart s next.1 wraps.2.symm⟩

/-- The answer of a node is the hash's successor exactly when the node is not stranded. -/
theorem Answers.isFirst_iff (ring : IsRing net) (postnodes : CorrectPostnodes net)
    (fingers : LiveFingers net) (live : p ∈ net.members)
    (apart : ∀ r ∈ net.members, net.position r ≠ hash.toNat) (ends : Answers net hash p answer) :
    IsFirst ringSize net.position net.members hash.toNat answer ↔ ¬ Strands net p hash := by
  have bound : ∀ r ∈ net.members, net.position r < ringSize := fun r _ => net.position_lt r
  have hp := net.position_lt p
  obtain ⟨s, next, same, testsIff⟩ := postnodes.tests_iff live apart
  have moved := clockwise_pos hp (apart p live)
  rcases findClosestPort_cases (fun _ _ => none) (net.state p) hash with
    ⟨tests, found⟩ | ⟨tests, stopped, found⟩ | ⟨-, i, -, found⟩
  · -- the hash lies between the node and its successor, where there is no live node
    have upTo := testsIff.mp tests
    have further : net.position p ≠ net.position s := by
      intro here
      rw [← here, clockwise_self] at upTo
      omega
    have none_ (r : ℕ) : ¬ InFront net hash p r := by
      rintro ⟨member, other, before⟩
      have nearest := next.2 r member
      rw [around_of_ne further, around_of_ne other.symm] at nearest
      omega
    have scan : scanFingers (net.state p) hash = none := by
      by_contra some_
      obtain ⟨i, scan⟩ := Option.ne_none_iff_exists'.mp some_
      obtain ⟨f, member, named⟩ := fingers p live i
      have inside := (fingerInside_iff _ _ _).mp (scanFingers_some scan)
      rw [named] at inside
      exact none_ f ⟨member, inside⟩
    rw [Answers, found, same, ring.self s next.1] at ends
    rw [strands_of_none scan, ← Option.some.inj ends]
    have first : IsFirst ringSize net.position net.members hash.toNat s := by
      apply next.isFirst bound hp hash.toNat_lt (apart p live).symm
      rwa [around_of_ne further]
    constructor
    · rintro - ⟨⟨r, front⟩, -⟩
      exact none_ r front
    · intro _
      exact first
  · -- the node answers itself
    have self : (net.state p).localNode.port = p := ring.self p live
    rw [Answers, found, self] at ends
    rw [strands_of_none stopped, ← Option.some.inj ends]
    constructor
    · intro first stranded
      exact stranded.2 first
    · intro clear
      by_contra wrong
      refine clear ⟨⟨s, next.1, ?_, ?_⟩, wrong⟩
      · intro alone
        have every := next.alone bound live alone
        exact wrong ⟨live, fun r member => by rw [every r member]⟩
      · exact Nat.lt_of_not_le fun upTo => tests (testsIff.mpr upTo)
  · rw [Answers, found] at ends
    cases ends

/-- A route leads to the hash's successor exactly when it does not strand. -/
theorem Route.isFirst_iff (ring : IsRing net) (postnodes : CorrectPostnodes net)
    (fingers : LiveFingers net) (apart : ∀ r ∈ net.members, net.position r ≠ hash.toNat)
    {path : List ℕ} (route : Route net hash p path answer) (live : p ∈ net.members) :
    IsFirst ringSize net.position net.members hash.toNat answer ↔ ¬ Strands net p hash := by
  induction route with
  | answer ends => exact ends.isFirst_iff ring postnodes fingers live apart
  | forward next member rest ih =>
    rw [strands_of_follows next.2]
    exact ih member

/-- With correct successors and live fingers, a lookup of a hash that is no key answers the hash's
successor exactly when it does not strand. -/
theorem findClosestPort_stale_iff (translate : ℕ → UInt32) (net : Network) (ring : IsRing net)
    (postnodes : CorrectPostnodes net) (fingers : LiveFingers net) (p : ℕ)
    (live : p ∈ net.members) (hash : UInt32)
    (apart : ∀ r ∈ net.members, net.position r ≠ hash.toNat) :
    LookupCorrect translate net p hash ↔ ¬ Strands net p hash := by
  have ports := postnodes.hasPorts ring
  obtain ⟨path, answer, route⟩ := fingers.route ring hash live
  rw [← route.isFirst_iff ring postnodes fingers apart live]
  have ended := (looksUp_iff_route translate ports live).mpr ⟨path, route⟩
  constructor
  · rintro ⟨q, found, first⟩
    have positive := (ring.ports q first.1).1
    obtain ⟨path', route'⟩ := (looksUp_iff_route translate ports live).mp ⟨found, by omega⟩
    rwa [(route.unique route').2]
  · intro first
    exact ⟨answer, ended.1, first⟩

/-! ## A ring of three nodes behind its joins -/

/-- The keys of three ports. -/
def keyOfThree (port : ℕ) : UInt32 := if port = 4000 then 10 else if port = 5000 then 20 else 30

/-- A node that knows its successor, with the fingers it starts with. -/
def freshNode (port postnode : ℕ) : NodeState :=
  { startNode keyOfThree (nodeAt keyOfThree port) port with postnode := nodeAt keyOfThree postnode }

/-- Three nodes with the keys 10, 20 and 30 and correct successors. -/
def freshNodes : Network where
  members := {4000, 5000, 6000}
  state port :=
    freshNode port (if port = 4000 then 5000 else if port = 5000 then 6000 else 4000)

/-- The three nodes are a ring. -/
theorem freshNodes_ring : IsRing freshNodes where
  inhabited := ⟨4000, by decide⟩
  ports := by decide
  self := by decide
  distinct := by
    have apart : ∀ p ∈ freshNodes.members, ∀ q ∈ freshNodes.members,
      freshNodes.position p = freshNodes.position q → p = q := by decide
    exact fun p hp q hq => apart p hp q hq

/-- Their successors are correct. -/
theorem freshNodes_postnodes : CorrectPostnodes freshNodes := by
  have next : ∀ p ∈ freshNodes.members, ∃ q ∈ freshNodes.members,
      (∀ r ∈ freshNodes.members, around ringSize (freshNodes.position p) (freshNodes.position q) ≤
        around ringSize (freshNodes.position p) (freshNodes.position r)) ∧
      (freshNodes.state p).postnode = freshNodes.node q := by decide
  intro p live
  obtain ⟨q, inside, nearest, same⟩ := next p live
  exact ⟨q, ⟨inside, nearest⟩, same⟩

/-- Their fingers name the nodes themselves. -/
theorem freshNodes_fingers : LiveFingers freshNodes := fun p live _ => ⟨p, live, rfl⟩

/-- A lookup that its first node answers. -/
theorem findClosestPort_stale_near :
    LookupCorrect keyOfThree freshNodes 4000 15 ↔ ¬ Strands freshNodes 4000 15 :=
  findClosestPort_stale_iff keyOfThree freshNodes freshNodes_ring freshNodes_postnodes
    freshNodes_fingers 4000 (by decide) 15 (by decide)

/-- A lookup past the successor ends at the node itself. -/
theorem findClosestPort_strands :
    IsRing freshNodes ∧ CorrectPostnodes freshNodes ∧ LiveFingers freshNodes ∧
      4000 ∈ freshNodes.members ∧
        (∀ r ∈ freshNodes.members, freshNodes.position r ≠ UInt32.toNat 25) ∧
          ¬ LookupCorrect keyOfThree freshNodes 4000 25 := by
  have live : 4000 ∈ freshNodes.members := by decide
  refine ⟨freshNodes_ring, freshNodes_postnodes, freshNodes_fingers, live, by decide, ?_⟩
  have ends : Answers freshNodes 25 4000 4000 := by decide
  rintro ⟨q, ⟨fuel, found⟩, first⟩
  rw [(ends.found _).1] at found
  obtain rfl := Option.some.inj found
  have wrong : ¬ ∀ r ∈ freshNodes.members,
      clockwise ringSize (UInt32.toNat 25) (freshNodes.position 4000) ≤
        clockwise ringSize (UInt32.toNat 25) (freshNodes.position r) := by decide
  exact wrong first.2

end TinyTools.Chord
