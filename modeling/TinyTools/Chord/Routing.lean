import TinyTools.Chord.Lookup

/-!
# Routes of a lookup

A lookup follows fingers from node to node until one node answers it. The route is the list of the
nodes visited. A lookup ends exactly when it has a route, and a bound on the nested exchanges is a
bound on the length of the route. Every finger that is followed lies strictly between the node and
the hash, so a route comes closer with every step and visits no node twice.
-/

namespace TinyTools.Chord

open TinyTools.Lib

/-- One of the machine's ports. -/
def IsPort (port : ℕ) : Prop := 0 < port ∧ port < 2 ^ 16

/-- A node hands a lookup on to the finger its scan stops at. -/
def Forwards (net : Network) (hash : UInt32) (p f : ℕ) : Prop :=
  ¬ successorTests (net.state p).localNode.key (net.state p).postnode.key hash ∧
    ∃ i, scanFingers (net.state p) hash = some i ∧ ((net.state p).finTb i).nodeInfo.port = f

/-- A node answers a lookup without asking another one. -/
def Answers (net : Network) (hash : UInt32) (p answer : ℕ) : Prop :=
  findClosestPort (fun _ _ => none) (net.state p) hash = some answer

instance (net : Network) (hash : UInt32) (p answer : ℕ) : Decidable (Answers net hash p answer) :=
  inferInstanceAs (Decidable (_ = _))

/-- The nodes a lookup visits, all of them live, up to the one that answers. -/
inductive Route (net : Network) (hash : UInt32) : ℕ → List ℕ → ℕ → Prop
  /-- The node answers. -/
  | answer {p answer : ℕ} (ends : Answers net hash p answer) : Route net hash p [p] answer
  /-- The node forwards the lookup. -/
  | forward {p f answer : ℕ} {path : List ℕ} (next : Forwards net hash p f)
    (live : f ∈ net.members) (rest : Route net hash f path answer) :
    Route net hash p (p :: path) answer

/-- Live nodes know themselves and their successor by ports of the machine. -/
def HasPorts (net : Network) : Prop :=
  ∀ p ∈ net.members, IsPort (net.state p).localNode.port ∧ IsPort (net.state p).postnode.port

/-- A node of a ring knows itself by one of the machine's ports. -/
theorem IsRing.hasPorts {net : Network} (ring : IsRing net)
    (postnodes : ∀ p ∈ net.members, IsPort (net.state p).postnode.port) : HasPorts net := by
  intro p live
  have self := ring.self p live
  unfold Network.node at self
  rw [self]
  exact ⟨ring.ports p live, postnodes p live⟩

/-- Correct successors are known by ports of the machine. -/
theorem CorrectPostnodes.hasPorts {net : Network} (postnodes : CorrectPostnodes net)
    (ring : IsRing net) : HasPorts net := by
  apply ring.hasPorts
  intro p live
  obtain ⟨q, next, same⟩ := postnodes p live
  rw [same, ring.self q next.1]
  exact ring.ports q next.1

/-- Every row of the finger tables of live nodes names a live node. -/
def LiveFingers (net : Network) : Prop :=
  ∀ p ∈ net.members, ∀ i : Fin 32, ∃ f ∈ net.members,
    ((net.state p).finTb i).nodeInfo = net.node f

/-- A finger that names a live node has the key of that node. -/
def KnownKeys (net : Network) : Prop :=
  ∀ p ∈ net.members, ∀ i : Fin 32, ((net.state p).finTb i).nodeInfo.port ∈ net.members →
    ((net.state p).finTb i).nodeInfo.key.toNat =
      net.position ((net.state p).finTb i).nodeInfo.port

/-- The fingers of a settled ring name live nodes. -/
theorem IsSettled.liveFingers {net : Network} (settled : IsSettled net) : LiveFingers net := by
  intro p live i
  obtain ⟨f, first, same⟩ := settled.fingers p live i
  exact ⟨f, first.1, same⟩

variable {translate : ℕ → UInt32} {net : Network} {hash : UInt32} {p f answer : ℕ}

/-! ## One node -/

/-- A node that answers names itself or its successor, whomever it could ask. -/
theorem Answers.found (ends : Answers net hash p answer) (ask : ℕ → UInt32 → Option ℕ) :
    findClosestPort ask (net.state p) hash = some answer ∧
      (answer = (net.state p).postnode.port ∨ answer = (net.state p).localNode.port) := by
  have asked := findClosestPort_eq ask (net.state p) hash
  unfold Answers at ends
  rw [findClosestPort_eq] at ends
  rw [asked]
  by_cases tests : successorTests (net.state p).localNode.key (net.state p).postnode.key hash
  · rw [if_pos tests] at ends ⊢
    exact ⟨ends, Or.inl (Option.some.inj ends).symm⟩
  · rw [if_neg tests] at ends ⊢
    cases scan : scanFingers (net.state p) hash with
    | none =>
      rw [scan] at ends
      exact ⟨ends, Or.inr (Option.some.inj ends).symm⟩
    | some i =>
      rw [scan] at ends
      cases ends

/-- A node that forwards passes on what the finger answers. -/
theorem Forwards.found (next : Forwards net hash p f) (ask : ℕ → UInt32 → Option ℕ) :
    findClosestPort ask (net.state p) hash = ask f hash := by
  obtain ⟨tests, i, scan, port⟩ := next
  rw [findClosestPort_eq, if_neg tests, scan]
  exact congrArg (fun port => ask port hash) port

/-- Every node answers or forwards. -/
theorem answers_or_forwards (net : Network) (hash : UInt32) (p : ℕ) :
    (∃ answer, Answers net hash p answer) ∨ ∃ f, Forwards net hash p f := by
  rcases findClosestPort_cases (fun _ _ => none) (net.state p) hash with
    ⟨-, found⟩ | ⟨-, -, found⟩ | ⟨tests, i, scan, -⟩
  · exact Or.inl ⟨_, found⟩
  · exact Or.inl ⟨_, found⟩
  · exact Or.inr ⟨_, tests, i, scan, rfl⟩

/-- No node does both. -/
theorem Answers.not_forwards (ends : Answers net hash p answer) : ¬ Forwards net hash p f := by
  intro next
  have none := next.found fun _ _ => none
  rw [Answers, none] at ends
  cases ends

/-- A node forwards to one finger. -/
theorem Forwards.unique {f' : ℕ} (next : Forwards net hash p f) (next' : Forwards net hash p f') :
    f = f' := by
  have same := next.found fun port _ => some port
  rw [next'.found fun port _ => some port] at same
  exact (Option.some.inj same).symm

/-! ## Routes -/

/-- A lookup has one route. -/
theorem Route.unique {path path' : List ℕ} {answer' : ℕ} (route : Route net hash p path answer)
    (route' : Route net hash p path' answer') : path = path' ∧ answer = answer' := by
  induction route generalizing path' with
  | answer ends =>
    cases route' with
    | answer ends' => exact ⟨rfl, Option.some.inj (ends.symm.trans ends')⟩
    | forward next' => exact absurd next' ends.not_forwards
  | forward next live rest ih =>
    cases route' with
    | answer ends' => exact absurd next ends'.not_forwards
    | forward next' live' rest' =>
      have same := next.unique next'
      subst same
      have both := ih rest'
      exact ⟨by rw [both.1], both.2⟩

/-- A route passes through live nodes. -/
theorem Route.live {path : List ℕ} (route : Route net hash p path answer)
    (start : p ∈ net.members) : ∀ q ∈ path, q ∈ net.members := by
  induction route with
  | answer ends =>
    intro q inside
    rwa [List.mem_singleton.mp inside]
  | forward next live rest ih =>
    intro q inside
    rcases List.mem_cons.mp inside with rfl | later
    · exact start
    · exact ih live q later

/-- A route ends with one of the machine's ports. -/
theorem Route.isPort {path : List ℕ} (ports : HasPorts net) (route : Route net hash p path answer)
    (start : p ∈ net.members) : IsPort answer := by
  induction route with
  | answer ends =>
    rcases (ends.found fun _ _ => none).2 with same | same <;> rw [same]
    · exact (ports _ start).2
    · exact (ports _ start).1
  | forward next live rest ih => exact ih live

/-- The exchange with a node that is not live answers zero or nothing. -/
theorem find_dead (translate : ℕ → UInt32) (hash : UInt32) (dead : f ∉ net.members)
    (fuel : ℕ) :
    find translate net fuel f hash = none ∨ find translate net fuel f hash = some 0 := by
  cases fuel with
  | zero => exact Or.inl rfl
  | succ fuel => exact Or.inr (if_neg dead)

/-- A lookup answers a port within a number of nested exchanges exactly when it has a route with no
more forwards. -/
theorem findClosestPort_route_iff (translate : ℕ → UInt32) (ports : HasPorts net)
    (start : p ∈ net.members) (fuel : ℕ) :
    findClosestPort (find translate net fuel) (net.state p) hash = some answer ∧ answer ≠ 0 ↔
      ∃ path, Route net hash p path answer ∧ path.length ≤ fuel + 1 := by
  induction fuel generalizing p answer with
  | zero =>
    constructor
    · rintro ⟨found, -⟩
      rcases answers_or_forwards net hash p with ⟨other, ends⟩ | ⟨f, next⟩
      · have same := (ends.found (find translate net 0)).1
        rw [found] at same
        rw [← Option.some.inj same] at ends
        exact ⟨[p], .answer ends, le_rfl⟩
      · rw [next.found] at found
        cases found
    · rintro ⟨path, route, short⟩
      cases route with
      | answer ends =>
        have port := (Route.answer ends).isPort ports start
        exact ⟨(ends.found _).1, Nat.pos_iff_ne_zero.mp port.1⟩
      | forward next live rest => cases rest <;> simp at short
  | succ fuel ih =>
    constructor
    · rintro ⟨found, some_⟩
      rcases answers_or_forwards net hash p with ⟨other, ends⟩ | ⟨f, next⟩
      · have same := (ends.found (find translate net (fuel + 1))).1
        rw [found] at same
        rw [← Option.some.inj same] at ends
        exact ⟨[p], .answer ends, by simp⟩
      · rw [next.found] at found
        by_cases live : f ∈ net.members
        · obtain ⟨result, later, positive, read⟩ := lookup_of_find translate live found
          obtain ⟨path, route, short⟩ := (ih live).mp ⟨later, positive⟩
          have port := route.isPort ports live
          rw [readPort_decimal port.2] at read
          subst read
          exact ⟨p :: path, .forward next live route, Nat.succ_le_succ short⟩
        · rcases find_dead translate hash live (fuel + 1) with dead | dead
          · rw [dead] at found
            cases found
          · rw [dead] at found
            exact absurd (Option.some.inj found).symm some_
    · rintro ⟨path, route, short⟩
      have port := route.isPort ports start
      refine ⟨?_, Nat.pos_iff_ne_zero.mp port.1⟩
      cases route with
      | answer ends => exact (ends.found _).1
      | forward next live rest =>
        rw [next.found]
        have later := (ih live).mpr ⟨_, rest, Nat.le_of_succ_le_succ short⟩
        exact find_of_lookup translate live port later.1

/-- A lookup ends with a port exactly when it has a route. -/
theorem looksUp_iff_route (translate : ℕ → UInt32) (ports : HasPorts net)
    (start : p ∈ net.members) :
    LooksUp translate net p hash answer ∧ answer ≠ 0 ↔ ∃ path, Route net hash p path answer := by
  constructor
  · rintro ⟨⟨fuel, found⟩, some_⟩
    obtain ⟨path, route, -⟩ :=
      (findClosestPort_route_iff translate ports start fuel).mp ⟨found, some_⟩
    exact ⟨path, route⟩
  · rintro ⟨path, route⟩
    have ended := (findClosestPort_route_iff translate ports start path.length).mpr
      ⟨path, route, Nat.le_succ _⟩
    exact ⟨⟨_, ended.1⟩, ended.2⟩

/-! ## Progress -/

/-- A finger that is followed lies strictly between the node and the hash. -/
theorem KnownKeys.inside (keys : KnownKeys net) (start : p ∈ net.members)
    (next : Forwards net hash p f) (live : f ∈ net.members) :
    net.position f ≠ net.position p ∧ clockwise ringSize (net.position p) (net.position f) <
      clockwise ringSize (net.position p) hash.toNat := by
  obtain ⟨-, i, scan, port⟩ := next
  have inside := (fingerInside_iff _ _ _).mp (scanFingers_some scan)
  have key := keys p start i (by rwa [port])
  rw [port] at key
  rw [key] at inside
  exact inside

/-- Every forward comes closer to the hash and does not reach it. -/
theorem KnownKeys.closer (keys : KnownKeys net) (start : p ∈ net.members)
    (next : Forwards net hash p f) (live : f ∈ net.members) :
    0 < clockwise ringSize (net.position f) hash.toNat ∧
      clockwise ringSize (net.position f) hash.toNat <
        clockwise ringSize (net.position p) hash.toNat := by
  have hp := net.position_lt p
  have hf := net.position_lt f
  obtain ⟨apart, inside⟩ := keys.inside start next live
  have split := clockwise_split hp hf hash.toNat_lt inside.le
  have moved := clockwise_pos hp apart.symm
  omega

/-- Live fingers are known by their keys. -/
theorem LiveFingers.knownKeys (fingers : LiveFingers net) (ring : IsRing net) : KnownKeys net := by
  intro p live i _
  obtain ⟨f, member, same⟩ := fingers p live i
  rw [same, ring.self f member]
  rfl

/-- A node with live fingers forwards only to live nodes. -/
theorem LiveFingers.forwards (fingers : LiveFingers net) (ring : IsRing net)
    (live : p ∈ net.members) (next : Forwards net hash p f) : f ∈ net.members := by
  obtain ⟨-, i, -, port⟩ := next
  obtain ⟨g, member, same⟩ := fingers p live i
  rw [same, ring.self g member] at port
  rwa [← port]

/-- Every lookup has a route. -/
theorem LiveFingers.route (fingers : LiveFingers net) (ring : IsRing net) (hash : UInt32)
    (live : p ∈ net.members) : ∃ path answer, Route net hash p path answer := by
  induction distance : clockwise ringSize (net.position p) hash.toNat using Nat.strong_induction_on
    generalizing p with
  | _ distance ih =>
  rcases answers_or_forwards net hash p with ⟨answer, ends⟩ | ⟨f, next⟩
  · exact ⟨[p], answer, .answer ends⟩
  · have member := fingers.forwards ring live next
    have closer := ((fingers.knownKeys ring).closer live next member).2
    obtain ⟨path, answer, rest⟩ := ih _ (distance ▸ closer) member rfl
    exact ⟨p :: path, answer, .forward next member rest⟩

/-- Behind its start a route is closer to the hash. -/
theorem Route.closer (keys : KnownKeys net) {path : List ℕ} (route : Route net hash p path answer)
    (start : p ∈ net.members) :
    ∃ rest, path = p :: rest ∧ ∀ q ∈ rest, clockwise ringSize (net.position q) hash.toNat <
      clockwise ringSize (net.position p) hash.toNat := by
  induction route with
  | answer ends => exact ⟨[], rfl, fun q inside => by cases inside⟩
  | forward next member rest ih =>
    obtain ⟨others, whole, further⟩ := ih member
    have closer := (keys.closer start next member).2
    refine ⟨_, rfl, fun q inside => ?_⟩
    rw [whole] at inside
    rcases List.mem_cons.mp inside with rfl | later
    · exact closer
    · exact (further q later).trans closer

/-- A route visits no node twice. -/
theorem Route.nodup (keys : KnownKeys net) {path : List ℕ} (route : Route net hash p path answer)
    (start : p ∈ net.members) : path.Nodup := by
  induction route with
  | answer ends => exact List.nodup_singleton _
  | forward next member rest ih =>
    obtain ⟨others, whole, further⟩ := (Route.forward next member rest).closer keys start
    have same := (List.cons.inj whole).2
    rw [same] at ih ⊢
    apply List.nodup_cons.mpr
    exact ⟨fun again => absurd (further _ again) (lt_irrefl _), ih member⟩

/-- A lookup on live fingers never comes back: every forward is strictly closer to the hash without
reaching it, and every lookup has a route that visits no node twice and leads to its answer. -/
theorem lookup_never_cycles (translate : ℕ → UInt32) (net : Network) (ring : IsRing net)
    (fingers : LiveFingers net) (ports : ∀ p ∈ net.members, IsPort (net.state p).postnode.port)
    (p : ℕ) (live : p ∈ net.members) (hash : UInt32) :
    (∀ f, Forwards net hash p f → 0 < clockwise ringSize (net.position f) hash.toNat ∧
      clockwise ringSize (net.position f) hash.toNat <
        clockwise ringSize (net.position p) hash.toNat) ∧
      ∃ path answer, Route net hash p path answer ∧ path.Nodup ∧ (∀ q ∈ path, q ∈ net.members) ∧
        path.length ≤ net.members.card ∧
          findClosestPort (find translate net (path.length - 1)) (net.state p) hash =
            some answer := by
  have known := ring.hasPorts ports
  have keys := fingers.knownKeys ring
  refine ⟨fun f next => keys.closer live next (fingers.forwards ring live next), ?_⟩
  obtain ⟨path, answer, route⟩ := fingers.route ring hash live
  have once := route.nodup keys live
  have visited := route.live live
  have few : path.length ≤ net.members.card := by
    rw [← List.toFinset_card_of_nodup once]
    apply Finset.card_le_card
    intro q inside
    exact visited q (List.mem_toFinset.mp inside)
  have found := (findClosestPort_route_iff translate known live
    (path.length - 1)).mpr ⟨path, route, by omega⟩
  exact ⟨path, answer, route, once, visited, few, found.1⟩

/-- A lookup on the ring of two nodes. -/
theorem lookup_never_cycles_two :
    (∀ f, Forwards twoNodes 15 5000 f →
      0 < clockwise ringSize (twoNodes.position f) (UInt32.toNat 15) ∧
        clockwise ringSize (twoNodes.position f) (UInt32.toNat 15) <
          clockwise ringSize (twoNodes.position 5000) (UInt32.toNat 15)) ∧
      ∃ path answer, Route twoNodes 15 5000 path answer ∧ path.Nodup ∧
        (∀ q ∈ path, q ∈ twoNodes.members) ∧ path.length ≤ twoNodes.members.card ∧
          findClosestPort (find keyOf twoNodes (path.length - 1)) (twoNodes.state 5000) 15 =
            some answer := by
  have ports : ∀ p ∈ twoNodes.members, 0 < (twoNodes.state p).postnode.port ∧
      (twoNodes.state p).postnode.port < 2 ^ 16 := by decide
  exact lookup_never_cycles keyOf twoNodes twoNodes_settled.toIsRing
    twoNodes_settled.liveFingers ports 5000 (by decide) 15

end TinyTools.Chord
