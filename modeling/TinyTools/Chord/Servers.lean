import TinyTools.Chord.Routing
import TinyTools.Lib.Deadlock
import TinyTools.Lib.Served

/-!
# Nodes as servers

`main` joins the thread of a connection before it accepts the next one, and `findClosestPort` keeps
its caller waiting while it asks another node. A session is a connection over which lookups are
asked for, by `query` or by a node that fixes a finger. Lookups that do not run past the top of the
ring go from a node to one with a greater key, so all sessions end, with right replies. A lookup
that runs past it and one that comes back up can wait for each other, on any settled ring.
-/

namespace TinyTools.Chord

open TinyTools.Lib

/-- The live nodes, each of which serves one connection at a time. -/
def chordNodes (net : Network) : Service ℕ UInt32 ℕ where
  members := net.members
  answers p hash answer := Answers net hash p answer
  forwards p hash f := Forwards net hash p f

variable {net : Network} {hash : UInt32} {p z answer : ℕ}

/-! ## Lookups that stay below the top -/

/-- A lookup of a hash not below the node's key goes to a greater key not above the hash. -/
theorem KnownKeys.upward {f : ℕ} (keys : KnownKeys net) (start : p ∈ net.members)
    (above : net.position p ≤ hash.toNat) (next : Forwards net hash p f)
    (live : f ∈ net.members) :
    net.position p < net.position f ∧ net.position f ≤ hash.toNat := by
  obtain ⟨apart, inside⟩ := keys.inside start next live
  have hf := net.position_lt f
  have hh : hash.toNat < ringSize := hash.toNat_lt
  unfold clockwise at inside
  split_ifs at inside <;> omega

/-- Such lookups are passed on upwards. -/
theorem LiveFingers.ranked (fingers : LiveFingers net) (ring : IsRing net) :
    (chordNodes net).Ranked (fun p hash => net.position p ≤ hash.toNat) net.position
      fun p hash => clockwise ringSize (net.position p) hash.toNat where
  total p _ hash _ := answers_or_forwards net hash p
  member _ live _ _ _ forwards := fingers.forwards ring live forwards
  suits _ live _ above _ forwards := ((fingers.knownKeys ring).upward live above forwards
    (fingers.forwards ring live forwards)).2
  rises _ live _ above _ forwards := ((fingers.knownKeys ring).upward live above forwards
    (fingers.forwards ring live forwards)).1
  falls _ live _ _ _ forwards := ((fingers.knownKeys ring).closer live forwards
    (fingers.forwards ring live forwards)).2

/-- A reply comes along a route. -/
theorem route_of_reaches (fingers : LiveFingers net) (ring : IsRing net)
    (reaches : (chordNodes net).Reaches hash p answer) (live : p ∈ net.members) :
    ∃ path, Route net hash p path answer := by
  induction reaches with
  | @answer p reply answers => exact ⟨[p], .answer answers⟩
  | @forward p next reply forwards rest ih =>
    have member := fingers.forwards ring live forwards
    obtain ⟨path, route⟩ := ih member
    exact ⟨p :: path, .forward forwards member route⟩

/-- On a settled ring the route of such a lookup leads to the first node from the hash on. -/
theorem IsSettled.first_of_route (settled : IsSettled net) (live : p ∈ net.members)
    (above : net.position p ≤ hash.toNat) {path : List ℕ} (route : Route net hash p path answer) :
    IsFirst ringSize net.position net.members hash.toNat answer := by
  have regular : ¬ WrapsToLeast net p hash := by
    rintro ⟨-, least, apart⟩
    have below := least p live
    omega
  have correct : LookupCorrect (fun _ => 0) net p hash := settled.lookup hash _ p live rfl regular
  obtain ⟨q, found, first⟩ := correct
  have ports := settled.postnodes.hasPorts settled.toIsRing
  have valid := (settled.ports q first.1).1
  obtain ⟨path', route'⟩ := (looksUp_iff_route _ ports live).mp ⟨found, by omega⟩
  rwa [(route.unique route').2]

/-- Sessions that ask only for hashes not below the key of their node are all served: the nodes can
take only so many steps, in any order, they do not stop before every client has left, no client is
lost or served twice, and every reply is that of the node's lookup, on a settled ring the first node
from the hash on. -/
theorem sessions_served (translate : ℕ → UInt32) (net : Network) (ring : IsRing net)
    (fingers : LiveFingers net) (ports : ∀ p ∈ net.members, IsPort (net.state p).postnode.port)
    (sessions : List (ℕ × List UInt32))
    (suits : ∀ x ∈ sessions, x.1 ∈ net.members ∧ ∀ hash ∈ x.2, net.position x.1 ≤ hash.toNat) :
    ∃ bound, ∀ k s, (chordNodes net).Steps k (Service.start sessions) s → k ≤ bound ∧
      ((∀ s', ¬ (chordNodes net).Step s s') → (∀ p, s.activity p = .idle) ∧ s.pending = [] ∧
        (s.ended.map fun x => (x.1, x.2.map Prod.fst)).Perm sessions ∧
          ∀ x ∈ s.ended, ∀ y ∈ x.2, LooksUp translate net x.1 y.1 y.2 ∧
            (IsSettled net → IsFirst ringSize net.position net.members y.1.toNat y.2)) := by
  let distance (p : ℕ) (hash : UInt32) := clockwise ringSize (net.position p) hash.toNat
  let begun : Servers ℕ UInt32 ℕ := Service.start sessions
  refine ⟨begun.work (chordNodes net) distance, fun k s steps => ?_⟩
  obtain ⟨bounded, finished⟩ := steps.served (fingers.ranked ring) suits
  refine ⟨bounded, fun stuck => ?_⟩
  obtain ⟨idle, none, all, replies⟩ := finished stuck
  refine ⟨idle, none, all, fun x left y asked => ?_⟩
  have client : (x.1, x.2.map Prod.fst) ∈ sessions :=
    all.subset (List.mem_map_of_mem left)
  obtain ⟨live, above⟩ := suits _ client
  obtain ⟨path, route⟩ := route_of_reaches fingers ring (replies x left y asked) live
  have found := (looksUp_iff_route translate (ring.hasPorts ports) live).mpr ⟨path, route⟩
  have below := above y.1 (List.mem_map_of_mem asked)
  exact ⟨found.1, fun settled => settled.first_of_route live below route⟩

/-- A ring of two nodes serves two clients. -/
theorem sessions_served_two : ∃ bound, ∀ k s,
    (chordNodes twoNodes).Steps k (Service.start [(4000, [15, 40]), (5000, [20])]) s →
      k ≤ bound ∧ ((∀ s', ¬ (chordNodes twoNodes).Step s s') → (∀ p, s.activity p = .idle) ∧
        s.pending = [] ∧ (s.ended.map fun x => (x.1, x.2.map Prod.fst)).Perm
          [(4000, [15, 40]), (5000, [20])] ∧
            ∀ x ∈ s.ended, ∀ y ∈ x.2, LooksUp keyOf twoNodes x.1 y.1 y.2 ∧
              (IsSettled twoNodes → IsFirst ringSize twoNodes.position twoNodes.members y.1.toNat
                y.2)) := by
  have least : twoNodes.position 4000 = 10 := rfl
  have greatest : twoNodes.position 5000 = 20 := rfl
  have suits : ∀ x ∈ [(4000, [(15 : UInt32), 40]), (5000, [20])],
      x.1 ∈ twoNodes.members ∧ ∀ hash ∈ x.2, twoNodes.position x.1 ≤ hash.toNat := by
    intro x inside
    simp only [List.mem_cons, List.not_mem_nil, or_false] at inside
    rcases inside with rfl | rfl
    · refine ⟨by decide, ?_⟩
      simp [least]
    · refine ⟨by decide, ?_⟩
      simp [greatest]
  exact sessions_served keyOf twoNodes twoNodes_settled.toIsRing twoNodes_settled.liveFingers
    (fun p live => (twoNodes_settled.postnodes.hasPorts twoNodes_settled.toIsRing p live).2)
    [(4000, [15, 40]), (5000, [20])] suits

/-! ## Lookups that run past the top -/

/-- On a settled ring a hash past the successor is passed on. -/
theorem IsSettled.forwards_past {s : ℕ} (settled : IsSettled net) (live : p ∈ net.members)
    (next : IsNext ringSize net.position net.members (net.position p) s)
    (same : (net.state p).postnode = net.node s) (apart : net.position s ≠ net.position p)
    (past : clockwise ringSize (net.position p) (net.position s) <
      clockwise ringSize (net.position p) hash.toNat) :
    ∃ f ∈ net.members, Forwards net hash p f := by
  have tests : ¬ successorTests (net.state p).localNode.key (net.state p).postnode.key hash := by
    intro accepted
    have upTo := ((successorTests_iff _ _ _).mp accepted).2.1
    rw [same] at upTo
    exact absurd past (Nat.not_lt.mpr upTo)
  have stops := settled.scan_past live next apart past
  obtain ⟨i, scan⟩ := Option.ne_none_iff_exists'.mp stops
  have forwards : Forwards net hash p ((net.state p).finTb i).nodeInfo.port := ⟨tests, i, scan, rfl⟩
  exact ⟨_, settled.liveFingers.forwards settled.toIsRing live forwards, forwards⟩

/-- Below the top of a settled ring every node passes a hash above the top on upwards. -/
theorem IsSettled.upward (settled : IsSettled net) (top : z ∈ net.members)
    (greatest : ∀ q ∈ net.members, net.position q ≤ net.position z)
    (above : net.position z < hash.toNat) (live : p ∈ net.members) (apart : p ≠ z) :
    ∃ f ∈ net.members, Forwards net hash p f ∧ net.position p < net.position f := by
  have hh : hash.toNat < ringSize := hash.toNat_lt
  have below : net.position p < net.position z := by
    apply lt_of_le_of_ne (greatest p live)
    intro same
    exact apart (settled.distinct live top same)
  obtain ⟨s, next, same⟩ := settled.postnodes p live
  have near := next.2 z top
  have hs := greatest s next.1
  have between : net.position p < net.position s := by
    unfold around clockwise at near
    split_ifs at near <;> omega
  have past : clockwise ringSize (net.position p) (net.position s) <
      clockwise ringSize (net.position p) hash.toNat := by
    unfold clockwise
    split_ifs <;> omega
  obtain ⟨f, member, forwards⟩ := settled.forwards_past live next same between.ne' past
  have keys := settled.liveFingers.knownKeys settled.toIsRing
  exact ⟨f, member, forwards, (keys.upward live (by omega) forwards member).1⟩

/-- The top of a settled ring passes on a hash that lies between two keys. -/
theorem IsSettled.downward (settled : IsSettled net) (top : z ∈ net.members)
    (greatest : ∀ q ∈ net.members, net.position q ≤ net.position z) (live : p ∈ net.members)
    (above : net.position p < hash.toNat) (below : hash.toNat < net.position z) :
    ∃ f ∈ net.members, f ≠ z ∧ Forwards net hash z f := by
  have hz := net.position_lt z
  obtain ⟨s, next, same⟩ := settled.postnodes z top
  have near := next.2 p live
  have hs := greatest s next.1
  have least : net.position s ≤ net.position p := by
    unfold around clockwise at near
    split_ifs at near <;> omega
  have past : clockwise ringSize (net.position z) (net.position s) <
      clockwise ringSize (net.position z) hash.toNat := by
    unfold clockwise
    split_ifs <;> omega
  obtain ⟨f, member, forwards⟩ := settled.forwards_past top next same (by omega) past
  have keys := settled.liveFingers.knownKeys settled.toIsRing
  have apart := (keys.inside top forwards member).1
  exact ⟨f, member, fun equal => apart (congrArg net.position equal), forwards⟩

/-- On a settled ring two lookups can wait for each other: one of a hash that lies below the
greatest key and above some other one, asked for at the top, and one of a hash above all keys,
asked for at the node to which the first one goes. Then every busy node waits for another busy one,
no client has a reply, and nothing happens any more. -/
theorem lookups_wait_in_circle (net : Network) (settled : IsSettled net) (z p : ℕ)
    (top : z ∈ net.members) (greatest : ∀ q ∈ net.members, net.position q ≤ net.position z)
    (live : p ∈ net.members) (hash hash' : UInt32) (above : net.position p < hash.toNat)
    (below : hash.toNat < net.position z) (past : net.position z < hash'.toNat) :
    ∃ f ∈ net.members, Forwards net hash z f ∧ ∃ k s,
      (chordNodes net).Steps k (Service.start [(z, [hash]), (f, [hash'])]) s ∧
        s.activity z ≠ .idle ∧ (∀ q, s.Waits q) ∧ s.Unreplied ∧
          ∀ s', ¬ (chordNodes net).Step s s' := by
  obtain ⟨f, member, apart, downward⟩ := settled.downward top greatest live above below
  have upward : ∀ q ∈ (chordNodes net).members, q ≠ z → ∃ g ∈ (chordNodes net).members,
      (chordNodes net).forwards q hash' g ∧ net.position q < net.position g :=
    fun q inside other => settled.upward top greatest past inside other
  have stuck := Service.deadlock upward (fun q _ => net.position_lt q) top member apart downward
  exact ⟨f, member, downward, stuck⟩

/-- Two nodes with the keys 10 and 20 that are asked for 15 and for 30. -/
theorem lookups_wait_in_circle_two : ∃ f ∈ twoNodes.members, Forwards twoNodes 15 5000 f ∧ ∃ k s,
    (chordNodes twoNodes).Steps k (Service.start [(5000, [15]), (f, [30])]) s ∧
      s.activity 5000 ≠ .idle ∧ (∀ q, s.Waits q) ∧ s.Unreplied ∧
        ∀ s', ¬ (chordNodes twoNodes).Step s s' :=
  lookups_wait_in_circle twoNodes twoNodes_settled 5000 4000 (by decide) (by decide) (by decide) 15
    30 (by decide) (by decide) (by decide)

end TinyTools.Chord
