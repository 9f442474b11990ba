import TinyTools.Chord.Network
import TinyTools.Lib.Clockwise

/-!
# Lookups on a settled ring

The finger scan tests exactly the open clockwise interval from the node to the hash, so a forwarded
lookup always comes closer. The two successor tests miss one point: at the node where the ring
wraps, a hash equal to the key of the successor is not recognised. That hash is the least key of the
ring, and a lookup of it from any other node stops at the node before it.
-/

namespace TinyTools.Chord

open TinyTools.Lib

/-- The number of positions on the ring. -/
abbrev ringSize : ℕ := 2 ^ 32

/-! ## The comparisons -/

/-- The finger scan accepts exactly the keys strictly inside the clockwise interval. -/
theorem fingerInside_iff (k f h : UInt32) :
    fingerInside k f h = true ↔ f.toNat ≠ k.toNat ∧
      clockwise ringSize k.toNat f.toNat < clockwise ringSize k.toNat h.toNat := by
  have hk := k.toNat_lt
  have hf := f.toNat_lt
  have hh := h.toNat_lt
  simp only [fingerInside, gt_iff_lt, UInt32.lt_iff_toNat_lt, Bool.or_eq_true, Bool.and_eq_true,
    decide_eq_true_eq, clockwise, ringSize]
  split_ifs <;> omega

/-- The two successor tests together. -/
def successorTests (k s h : UInt32) : Prop :=
  h > k ∧ h ≤ s ∨ (h > k ∨ h < s) ∧ k > s

instance (k s h : UInt32) : Decidable (successorTests k s h) :=
  inferInstanceAs (Decidable (_ ∨ _))

/-- The successor tests accept the clockwise interval up to the successor, without its end when the
interval wraps. -/
theorem successorTests_iff (k s h : UInt32) :
    successorTests k s h ↔ h.toNat ≠ k.toNat ∧
      clockwise ringSize k.toNat h.toNat ≤ clockwise ringSize k.toNat s.toNat ∧
      ¬ (s.toNat < k.toNat ∧ h.toNat = s.toNat) := by
  have hk := k.toNat_lt
  have hs := s.toNat_lt
  have hh := h.toNat_lt
  simp only [successorTests, gt_iff_lt, UInt32.lt_iff_toNat_lt, UInt32.le_iff_toNat_le, clockwise,
    ringSize]
  split_ifs <;> omega

/-- `findClosestPort` with its two successor tests joined. -/
theorem findClosestPort_eq (ask : ℕ → UInt32 → Option ℕ) (s : NodeState) (hash : UInt32) :
    findClosestPort ask s hash =
      if successorTests s.localNode.key s.postnode.key hash then some s.postnode.port
      else match scanFingers s hash with
        | some i => ask (s.finTb i).nodeInfo.port hash
        | none => some s.localNode.port := by
  rw [findClosestPort]
  by_cases first : hash > s.localNode.key ∧ hash ≤ s.postnode.key
  · rw [if_pos first, if_pos (show successorTests _ _ _ from Or.inl first)]
  · rw [if_neg first]
    by_cases second :
        (hash > s.localNode.key ∨ hash < s.postnode.key) ∧ s.localNode.key > s.postnode.key
    · rw [if_pos second, if_pos (show successorTests _ _ _ from Or.inr second)]
    · have neither : ¬ successorTests s.localNode.key s.postnode.key hash :=
        not_or.mpr ⟨first, second⟩
      exact (if_neg second).trans (if_neg neither).symm

/-- The scan stops at a finger inside the interval. -/
theorem scanFingers_some {s : NodeState} {hash : UInt32} {i : Fin 32}
    (stopped : scanFingers s hash = some i) :
    fingerInside s.localNode.key (s.finTb i).nodeInfo.key hash = true :=
  @List.find?_some _ (fun i => fingerInside _ (s.finTb i).nodeInfo.key hash) _ _ stopped

/-- The scan passes the whole table only when no finger is inside. -/
theorem scanFingers_none {s : NodeState} {hash : UInt32} (passed : scanFingers s hash = none)
    (i : Fin 32) : fingerInside s.localNode.key (s.finTb i).nodeInfo.key hash = false := by
  have none := List.find?_eq_none.mp passed i (List.mem_reverse.mpr (List.mem_finRange i))
  simpa using none

/-! ## Rings -/

/-- Live nodes with distinct keys, each listening on one of the machine's ports. -/
structure IsRing (net : Network) : Prop where
  /-- Some node is live. -/
  inhabited : net.members.Nonempty
  /-- Ports are those of the machine. -/
  ports : ∀ p ∈ net.members, 0 < p ∧ p < 2 ^ 16
  /-- A node knows its own port. -/
  self : ∀ p ∈ net.members, (net.node p).port = p
  /-- No two live nodes share a key. -/
  distinct : Set.InjOn net.position net.members

/-- Every node's successor pointer is its clockwise successor. -/
def CorrectPostnodes (net : Network) : Prop :=
  ∀ p ∈ net.members, ∃ q, IsNext ringSize net.position net.members (net.position p) q ∧
    (net.state p).postnode = net.node q

/-- Every row of every finger table names the first node at or after its start. -/
def CorrectFingers (net : Network) : Prop :=
  ∀ p ∈ net.members, ∀ i : Fin 32, ∃ q,
    IsFirst ringSize net.position net.members ((net.position p + 2 ^ i.val) % ringSize) q ∧
      ((net.state p).finTb i).nodeInfo = net.node q

/-- A ring whose pointers are all correct. -/
structure IsSettled (net : Network) : Prop extends IsRing net where
  /-- The successor pointers are correct. -/
  postnodes : CorrectPostnodes net
  /-- The finger tables are correct. -/
  fingers : CorrectFingers net

/-- The lookup answers the first node at or clockwise after the hash. -/
def LookupCorrect (translate : ℕ → UInt32) (net : Network) (p : ℕ) (hash : UInt32) : Prop :=
  ∃ q, LooksUp translate net p hash q ∧
    IsFirst ringSize net.position net.members hash.toNat q

/-- The hash is the least key of the ring, and the lookup starts at another node. -/
def WrapsToLeast (net : Network) (p : ℕ) (hash : UInt32) : Prop :=
  (∃ q ∈ net.members, net.position q = hash.toNat) ∧
    (∀ r ∈ net.members, hash.toNat ≤ net.position r) ∧ net.position p ≠ hash.toNat

variable {translate : ℕ → UInt32} {net : Network} {p q : ℕ} {hash : UInt32}

/-- A position lies on the ring. -/
theorem Network.position_lt (net : Network) (p : ℕ) : net.position p < ringSize :=
  (net.node p).key.toNat_lt

/-- A finger inside the interval is a live node that is closer to the hash. -/
theorem IsSettled.forward (settled : IsSettled net) (live : p ∈ net.members) {i : Fin 32}
    (stopped : scanFingers (net.state p) hash = some i) :
    ∃ f ∈ net.members, ((net.state p).finTb i).nodeInfo = net.node f ∧
      ((net.state p).finTb i).nodeInfo.port = f ∧ net.position f ≠ net.position p ∧
      clockwise ringSize (net.position p) (net.position f) <
        clockwise ringSize (net.position p) hash.toNat := by
  obtain ⟨f, first, same⟩ := settled.fingers p live i
  have inside := (fingerInside_iff _ _ _).mp (scanFingers_some stopped)
  rw [same] at inside
  exact ⟨f, first.1, same, by rw [same]; exact settled.self f first.1, inside⟩

/-- The walk from the finger to the hash is shorter than the one from the node. -/
theorem clockwise_forward {k f h : ℕ} (hk : k < ringSize) (hf : f < ringSize) (hh : h < ringSize)
    (apart : f ≠ k) (inside : clockwise ringSize k f < clockwise ringSize k h) :
    clockwise ringSize f h < clockwise ringSize k h := by
  have split := clockwise_split hk hf hh inside.le
  have moved := clockwise_pos hk apart.symm
  omega

/-- The first finger names the successor, so a hash past the successor has a finger in front. -/
theorem IsSettled.scan_past (settled : IsSettled net) (live : p ∈ net.members)
    (next : IsNext ringSize net.position net.members (net.position p) q)
    (apart : net.position q ≠ net.position p)
    (past : clockwise ringSize (net.position p) (net.position q) <
      clockwise ringSize (net.position p) hash.toNat) :
    scanFingers (net.state p) hash ≠ none := by
  intro passed
  obtain ⟨f, first, same⟩ := settled.fingers p live 0
  have hp := net.position_lt p
  have hq := net.position_lt q
  have hf := net.position_lt f
  have outside := scanFingers_none passed 0
  rw [← Bool.not_eq_true, fingerInside_iff, same] at outside
  apply outside
  -- the row starts one position after the node, where the walk to the next node begins
  have nearest := first.2 q next.1
  rw [Fin.val_zero, pow_zero] at nearest
  have toFinger := clockwise_succ hp hf
  have toNext := clockwise_succ hp hq
  rw [around_of_ne apart.symm] at toNext
  have short := clockwise_lt hp hash.toNat_lt
  have moved : net.position p ≠ net.position f := by
    intro here
    rw [here, around_self] at toFinger
    rw [here] at nearest toNext past short
    omega
  rw [around_of_ne moved] at toFinger
  refine ⟨moved.symm, ?_⟩
  change clockwise ringSize (net.position p) (net.position f) <
    clockwise ringSize (net.position p) hash.toNat
  omega

/-- The three ways `findClosestPort` ends. -/
theorem findClosestPort_cases (ask : ℕ → UInt32 → Option ℕ) (s : NodeState) (hash : UInt32) :
    (successorTests s.localNode.key s.postnode.key hash ∧
        findClosestPort ask s hash = some s.postnode.port) ∨
      (¬ successorTests s.localNode.key s.postnode.key hash ∧ scanFingers s hash = none ∧
        findClosestPort ask s hash = some s.localNode.port) ∨
      (¬ successorTests s.localNode.key s.postnode.key hash ∧
        ∃ i, scanFingers s hash = some i ∧
          findClosestPort ask s hash = ask (s.finTb i).nodeInfo.port hash) := by
  rw [findClosestPort_eq]
  by_cases tests : successorTests s.localNode.key s.postnode.key hash
  · exact Or.inl ⟨tests, if_pos tests⟩
  · rw [if_neg tests]
    cases scan : scanFingers s hash with
    | none => exact Or.inr (Or.inl ⟨tests, rfl, rfl⟩)
    | some i => exact Or.inr (Or.inr ⟨tests, i, rfl, rfl⟩)

/-! ## The lookup -/

/-- A lookup that does not wrap to the least key answers the right node. -/
theorem IsSettled.lookup (settled : IsSettled net) (hash : UInt32) (distance : ℕ) :
    ∀ p ∈ net.members, clockwise ringSize (net.position p) hash.toNat = distance →
      ¬ WrapsToLeast net p hash → LookupCorrect translate net p hash := by
  induction distance using Nat.strong_induction_on with
  | _ distance ih =>
  intro p live measure regular
  have hp := net.position_lt p
  have hh : hash.toNat < ringSize := hash.toNat_lt
  obtain ⟨s, next, same⟩ := settled.postnodes p live
  have hs := net.position_lt s
  have bound : ∀ r ∈ net.members, net.position r < ringSize := fun r _ => net.position_lt r
  have testsIff := successorTests_iff (net.state p).localNode.key (net.state p).postnode.key hash
  rw [same] at testsIff
  change _ ↔ hash.toNat ≠ net.position p ∧ clockwise ringSize (net.position p) hash.toNat ≤
    clockwise ringSize (net.position p) (net.position s) ∧
      ¬ (net.position s < net.position p ∧ hash.toNat = net.position s) at testsIff
  have cases_ (fuel : ℕ) := findClosestPort_cases (find translate net fuel) (net.state p) hash
  rw [same] at cases_
  rcases cases_ 0 with ⟨tests, answered⟩ | ⟨tests, passed, answered⟩ | ⟨tests, i, stopped, -⟩
  · rw [settled.self s next.1] at answered
    obtain ⟨apart, upTo, -⟩ := testsIff.mp tests
    refine ⟨s, ⟨0, answered⟩, next.isFirst bound hp hh apart ?_⟩
    have moved := clockwise_pos hp apart.symm
    rwa [around_of_ne]
    rintro equal
    rw [← equal, clockwise_self] at upTo
    omega
  · change _ = some (net.node p).port at answered
    rw [settled.self p live] at answered
    refine ⟨p, ⟨0, answered⟩, ?_⟩
    by_cases here : net.position p = hash.toNat
    · exact isFirst_of_key_eq live here
    by_cases alone : net.position s = net.position p
    · have every := next.alone bound live alone
      exact ⟨live, fun r inside => by rw [every r inside]⟩
    -- past the successor the first finger stops the scan, so the successor test was missed
    exfalso
    rw [testsIff, not_and_or, not_and_or] at tests
    rcases tests with at_ | past | missed
    · exact at_ (Ne.symm here)
    · exact settled.scan_past live next alone (by omega) passed
    · obtain ⟨wraps, least⟩ := not_not.mp missed
      exact regular ⟨⟨s, next.1, least.symm⟩,
        fun r inside => least ▸ next.least bound hp wraps r inside, here⟩
  · obtain ⟨f, member, -, port, apart, inside⟩ := settled.forward live stopped
    have closer := clockwise_forward hp (net.position_lt f) hh apart inside
    have regular' : ¬ WrapsToLeast net f hash := by
      rintro ⟨present, least, -⟩
      refine regular ⟨present, least, fun here => ?_⟩
      rw [here, clockwise_self] at inside
      omega
    obtain ⟨r, ⟨fuel, found⟩, first⟩ := ih _ (measure ▸ closer) f member rfl regular'
    refine ⟨r, ⟨fuel + 1, ?_⟩, first⟩
    rw [findClosestPort_eq, same, if_neg tests, stopped]
    change find translate net (fuel + 1) _ hash = some r
    rw [port]
    exact find_of_lookup translate member (settled.ports r first.1) found

/-- When no node forwarded to answers the node with the least key, neither does this one. -/
theorem IsSettled.misses (settled : IsSettled net) {ask : ℕ → UInt32 → Option ℕ}
    (forwarded : ∀ f ∈ net.members, WrapsToLeast net f hash → ∀ r, ask f hash = some r →
      r ∈ net.members ∧ net.position r ≠ hash.toNat)
    (live : p ∈ net.members) (wraps : WrapsToLeast net p hash) {r : ℕ}
    (answered : findClosestPort ask (net.state p) hash = some r) :
    r ∈ net.members ∧ net.position r ≠ hash.toNat := by
  obtain ⟨⟨q, inside, present⟩, least, apart⟩ := wraps
  obtain ⟨s, next, same⟩ := settled.postnodes p live
  rcases findClosestPort_cases ask (net.state p) hash with
    ⟨tests, found⟩ | ⟨-, -, found⟩ | ⟨-, i, stopped, found⟩
  · -- the tests accept no hash below every key, except the successor's own, which they miss
    exfalso
    obtain ⟨-, upTo, notEnd⟩ := (successorTests_iff _ _ _).mp tests
    rw [same] at upTo notEnd
    have nearest := next.2 q inside
    have smallest := least s next.1
    have below := least p live
    have hp := net.position_lt p
    have hs := net.position_lt s
    rw [present] at nearest
    change clockwise ringSize (net.position p) hash.toNat ≤
      clockwise ringSize (net.position p) (net.position s) at upTo
    change ¬ (net.position s < net.position p ∧ hash.toNat = net.position s) at notEnd
    unfold around clockwise ringSize at *
    split_ifs at * <;> omega
  · obtain rfl : (net.node p).port = r := Option.some.inj (found.symm.trans answered)
    rw [settled.self p live]
    exact ⟨live, apart⟩
  · obtain ⟨f, member, -, port, -, closer⟩ := settled.forward live stopped
    rw [found, port] at answered
    refine forwarded f member ⟨⟨q, inside, present⟩, least, fun here => ?_⟩ r answered
    rw [here] at closer
    omega

/-- A lookup that wraps to the least key never answers the node that has it. -/
theorem IsSettled.lookup_wraps (settled : IsSettled net) (fuel : ℕ) :
    ∀ p ∈ net.members, WrapsToLeast net p hash →
      ∀ r, findClosestPort (find translate net fuel) (net.state p) hash = some r →
        r ∈ net.members ∧ net.position r ≠ hash.toNat := by
  induction fuel with
  | zero =>
    intro p live wraps r answered
    exact settled.misses (fun f _ _ r reply => by cases reply) live wraps answered
  | succ fuel ih =>
    intro p live wraps r answered
    refine settled.misses (fun f member wraps r reply => ?_) live wraps answered
    obtain ⟨result, found, -, rfl⟩ := lookup_of_find translate member reply
    have known := ih f member wraps result found
    rwa [readPort_decimal (settled.ports result known.1).2]

/-- A lookup that wraps to the least key is wrong. -/
theorem IsSettled.not_lookupCorrect (settled : IsSettled net) (live : p ∈ net.members)
    (wraps : WrapsToLeast net p hash) : ¬ LookupCorrect translate net p hash := by
  rintro ⟨q, ⟨fuel, answered⟩, first⟩
  obtain ⟨-, apart⟩ := settled.lookup_wraps fuel p live wraps q answered
  obtain ⟨r, inside, present⟩ := wraps.1
  have nearest := first.2 r inside
  rw [present, clockwise_self] at nearest
  have moved : 0 < clockwise ringSize hash.toNat (net.position q) :=
    clockwise_pos hash.toNat_lt (Ne.symm apart)
  omega

/-- On a settled ring a lookup answers the first node at or after the hash exactly when it does not
wrap to the least key. -/
theorem findClosestPort_first_iff (translate : ℕ → UInt32) (net : Network) (settled : IsSettled net)
    (p : ℕ) (live : p ∈ net.members) (hash : UInt32) :
    LookupCorrect translate net p hash ↔ ¬ WrapsToLeast net p hash :=
  ⟨fun correct wraps => settled.not_lookupCorrect live wraps correct,
    settled.lookup hash _ p live rfl⟩

/-! ## A ring of two nodes -/

/-- The keys of two ports. -/
def keyOf (port : ℕ) : UInt32 := if port = 4000 then 10 else 20

/-- The node whose successor and fingers are given by their ports. -/
def pointingNode (port postnode : ℕ) (finger : Fin 32 → ℕ) : NodeState where
  localNode := nodeAt keyOf port
  postnode := nodeAt keyOf postnode
  postnode2 := nodeAt keyOf port
  prenode := some (nodeAt keyOf postnode)
  finTb i := ⟨keyOf port + UInt32.ofNat (2 ^ i.val), nodeAt keyOf (finger i)⟩

/-- Two nodes with the keys 10 and 20, all pointers correct. -/
def twoNodes : Network where
  members := {4000, 5000}
  state port :=
    if port = 4000 then pointingNode 4000 5000 fun i => if i < 4 then 5000 else 4000
    else pointingNode 5000 4000 fun _ => 4000

/-- The pointers are those of a settled ring. -/
theorem twoNodes_settled : IsSettled twoNodes where
  inhabited := ⟨4000, by decide⟩
  ports := by decide
  self := by decide
  distinct := by
    have apart : ∀ p ∈ twoNodes.members, ∀ q ∈ twoNodes.members,
      twoNodes.position p = twoNodes.position q → p = q := by decide
    exact fun p hp q hq => apart p hp q hq
  postnodes := by
    have next : ∀ p ∈ twoNodes.members, ∃ q ∈ twoNodes.members,
        (∀ r ∈ twoNodes.members, around ringSize (twoNodes.position p) (twoNodes.position q) ≤
          around ringSize (twoNodes.position p) (twoNodes.position r)) ∧
        (twoNodes.state p).postnode = twoNodes.node q := by decide
    intro p live
    obtain ⟨q, inside, nearest, same⟩ := next p live
    exact ⟨q, ⟨inside, nearest⟩, same⟩
  fingers := by
    have first : ∀ p ∈ twoNodes.members, ∀ i : Fin 32, ∃ q ∈ twoNodes.members,
        (∀ r ∈ twoNodes.members,
          clockwise ringSize ((twoNodes.position p + 2 ^ i.val) % ringSize) (twoNodes.position q) ≤
          clockwise ringSize ((twoNodes.position p + 2 ^ i.val) % ringSize) (twoNodes.position r)) ∧
        ((twoNodes.state p).finTb i).nodeInfo = twoNodes.node q := by decide +kernel
    intro p live i
    obtain ⟨q, inside, nearest, same⟩ := first p live i
    exact ⟨q, ⟨inside, nearest⟩, same⟩

/-- A lookup of a hash between the two keys. -/
theorem findClosestPort_first_between :
    LookupCorrect keyOf twoNodes 5000 15 ↔ ¬ WrapsToLeast twoNodes 5000 15 :=
  findClosestPort_first_iff keyOf twoNodes twoNodes_settled 5000 (by decide) 15

/-- The node with the greater key does not find the node with the lesser one under its own key. -/
theorem findClosestPort_not_first :
    IsSettled twoNodes ∧ 5000 ∈ twoNodes.members ∧ ¬ LookupCorrect keyOf twoNodes 5000 10 := by
  have live : 5000 ∈ twoNodes.members := by decide
  have wraps : WrapsToLeast twoNodes 5000 10 := ⟨⟨4000, by decide, by decide⟩, by decide, by decide⟩
  exact ⟨twoNodes_settled, live, twoNodes_settled.not_lookupCorrect live wraps⟩

end TinyTools.Chord
