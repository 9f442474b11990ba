import TinyTools.Chord.Routing

/-!
# Lookups on a settled ring are short

The scan takes the highest row whose finger lies before the hash. On a settled ring that finger lies
beyond half of the way to every live node in front of the hash, so each forward halves a bound on
what is left of the way. Keys have 32 bits, and as many forwards leave nothing.
-/

namespace TinyTools.Chord

open TinyTools.Lib

variable {translate : ℕ → UInt32} {net : Network} {hash : UInt32} {p f answer : ℕ}

/-- The scan stops at the highest finger inside. -/
theorem scanFingers_highest {s : NodeState} {i j : Fin 32} (stopped : scanFingers s hash = some i)
    (inside : fingerInside s.localNode.key (s.finTb j).nodeInfo.key hash = true) : j ≤ i := by
  obtain ⟨-, before, after, split, passed⟩ := List.find?_eq_some_iff_append.mp stopped
  have descending : (List.finRange 32).reverse.Pairwise (· > ·) :=
    List.pairwise_reverse.mpr (List.pairwise_lt_finRange 32)
  rw [split] at descending
  have listed : j ∈ before ++ i :: after := by
    rw [← split]
    exact List.mem_reverse.mpr (List.mem_finRange j)
  rcases List.mem_append.mp listed with early | late
  · have outside := passed j early
    rw [inside] at outside
    cases outside
  · rcases List.mem_cons.mp late with rfl | later
    · exact le_rfl
    · have tail := (List.pairwise_append.mp descending).2.1
      exact ((List.pairwise_cons.mp tail).1 j later).le

/-- Every live node in front of the hash is nearer than a power of two. -/
def Near (net : Network) (hash : UInt32) (p k : ℕ) : Prop :=
  ∀ q ∈ net.members, clockwise ringSize (net.position p) (net.position q) <
    clockwise ringSize (net.position p) hash.toNat →
      clockwise ringSize (net.position p) (net.position q) < 2 ^ k

/-- The finger that is followed is at least as far away as its row says. -/
theorem IsSettled.far (settled : IsSettled net) (live : p ∈ net.members)
    (next : Forwards net hash p f) :
    ∃ i : Fin 32, scanFingers (net.state p) hash = some i ∧
      2 ^ i.val ≤ clockwise ringSize (net.position p) (net.position f) := by
  have bound : ∀ r ∈ net.members, net.position r < ringSize := fun r _ => net.position_lt r
  have member := settled.liveFingers.forwards settled.toIsRing live next
  have keys := settled.liveFingers.knownKeys settled.toIsRing
  have apart := (keys.inside live next member).1
  obtain ⟨-, i, scan, port⟩ := next
  refine ⟨i, scan, ?_⟩
  obtain ⟨g, first, same⟩ := settled.fingers p live i
  rw [same, settled.self g first.1] at port
  subst port
  have short : 2 ^ i.val < ringSize := Nat.pow_lt_pow_right (by decide) i.isLt
  exact first.le_clockwise bound live short apart

/-- A row whose start lies at or before a live node in front of the hash is not passed by the
scan. -/
theorem IsSettled.row_le (settled : IsSettled net) (live : p ∈ net.members) {i j : Fin 32} {q : ℕ}
    (stopped : scanFingers (net.state p) hash = some i) (member : q ∈ net.members)
    (behind : 2 ^ j.val ≤ clockwise ringSize (net.position p) (net.position q))
    (before : clockwise ringSize (net.position p) (net.position q) <
      clockwise ringSize (net.position p) hash.toNat) : j ≤ i := by
  have bound : ∀ r ∈ net.members, net.position r < ringSize := fun r _ => net.position_lt r
  obtain ⟨g, first, same⟩ := settled.fingers p live j
  obtain ⟨reached, upTo⟩ := first.clockwise_le bound (net.position_lt p) member behind
  apply scanFingers_highest stopped
  rw [fingerInside_iff, same]
  constructor
  · intro here
    change net.position g = net.position p at here
    rw [here, clockwise_self] at reached
    exact absurd reached (Nat.not_le.mpr (Nat.two_pow_pos j.val))
  · exact upTo.trans_lt before

/-- A forward halves the bound. -/
theorem Near.forward (settled : IsSettled net) (live : p ∈ net.members) {k : ℕ} (row : k < 32)
    (near : Near net hash p (k + 1)) (next : Forwards net hash p f) : Near net hash f k := by
  have member := settled.liveFingers.forwards settled.toIsRing live next
  have keys := settled.liveFingers.knownKeys settled.toIsRing
  have inside := (keys.inside live next member).2
  obtain ⟨i, stopped, far⟩ := settled.far live next
  intro q present before
  obtain ⟨split, ahead⟩ := clockwise_trans (net.position_lt p) (net.position_lt f)
    (net.position_lt q) hash.toNat_lt inside before
  by_contra outside
  have behind : 2 ^ k ≤ clockwise ringSize (net.position p) (net.position q) := by omega
  have highest : k ≤ i.val := settled.row_le (j := ⟨k, row⟩) live stopped present behind ahead
  have power : 2 ^ k ≤ 2 ^ i.val := Nat.pow_le_pow_right (by decide) highest
  have bounded := near q present ahead
  rw [pow_succ] at bounded
  omega

/-- A route is no longer than the exponent of the bound. -/
theorem Route.length_le (settled : IsSettled net) {path : List ℕ}
    (route : Route net hash p path answer) (live : p ∈ net.members) {k : ℕ} (rows : k ≤ 32)
    (near : Near net hash p k) : path.length ≤ k + 1 := by
  induction route generalizing k with
  | answer ends => exact Nat.succ_le_succ (Nat.zero_le k)
  | @forward p f answer path next member rest ih =>
    cases k with
    | zero =>
      -- nothing lies in front of the hash any more
      exfalso
      have keys := settled.liveFingers.knownKeys settled.toIsRing
      obtain ⟨apart, inside⟩ := keys.inside live next member
      have here := near f member inside
      have moved := clockwise_pos (net.position_lt p) apart.symm
      omega
    | succ k => exact Nat.succ_le_succ (ih member (by omega) (near.forward settled live rows next))

/-- On a settled ring every lookup ends within 32 forwards. -/
theorem lookup_logarithmic (translate : ℕ → UInt32) (net : Network) (settled : IsSettled net)
    (p : ℕ) (live : p ∈ net.members) (hash : UInt32) :
    (∃ path answer, Route net hash p path answer ∧
      findClosestPort (find translate net 32) (net.state p) hash = some answer) ∧
        ∀ path answer, Route net hash p path answer → path.length - 1 ≤ 32 := by
  have ring := settled.toIsRing
  have ports := settled.postnodes.hasPorts ring
  have near : Near net hash p 32 := fun q _ _ =>
    clockwise_lt (net.position_lt p) (net.position_lt q)
  have short : ∀ path answer, Route net hash p path answer → path.length ≤ 33 :=
    fun path answer route => route.length_le settled live le_rfl near
  constructor
  · obtain ⟨path, answer, route⟩ := settled.liveFingers.route ring hash live
    have found := (findClosestPort_route_iff translate ports live 32).mpr
      ⟨path, route, short path answer route⟩
    exact ⟨path, answer, route, found.1⟩
  · intro path answer route
    exact Nat.sub_le_of_le_add (short path answer route)

/-- The lookup of a hash between the keys of two nodes. -/
theorem lookup_logarithmic_two :
    (∃ path answer, Route twoNodes 15 5000 path answer ∧
      findClosestPort (find keyOf twoNodes 32) (twoNodes.state 5000) 15 = some answer) ∧
        ∀ path answer, Route twoNodes 15 5000 path answer → path.length - 1 ≤ 32 :=
  lookup_logarithmic keyOf twoNodes twoNodes_settled 5000 (by decide) 15

end TinyTools.Chord
