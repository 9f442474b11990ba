import TinyTools.Chord.Exchanges

/-!
# Lookups that are retried

Every lookup is repeated while it answers zero, and zero is what a lookup answers whose next finger
has crashed. Nothing in the loop changes that finger, so the loop ends exactly when the chain of
fingers reaches no crashed node. One pass over the finger table is such a loop for each row, on the
table that the rows before have left.
-/

namespace TinyTools.Chord

open TinyTools.Lib

/-- Fingers lead from a live node to one that has crashed. -/
inductive DeadEnd (net : Network) (hash : UInt32) : ℕ → Prop
  /-- The next finger has crashed. -/
  | here {p f : ℕ} (next : Forwards net hash p f) (dead : f ∉ net.members) : DeadEnd net hash p
  /-- The next finger leads there. -/
  | later {p f : ℕ} (next : Forwards net hash p f) (live : f ∈ net.members)
    (rest : DeadEnd net hash f) : DeadEnd net hash p

section

variable (translate : ℕ → UInt32)

/-- The loop around a lookup ends. -/
def RetryEnds (net : Network) (p : ℕ) (hash : UInt32) : Prop :=
  ∃ fuel rounds result,
    retry (findClosestPort (find translate net fuel) (net.state p) hash) rounds = some result

/-- The rows of `updateFingerTable`: `fix_fingers` for one after the other. -/
def fixRows (p fuel : ℕ) : List (Fin 32) → Network → Option Network
  | [], net => some net
  | i :: rows, net => do
    let portNeeded ← retry (findClosestPort (find translate net fuel) (net.state p)
      ((net.state p).finTb i).start) (fuel + 1)
    fixRows p fuel rows (fixFingers translate net p i portNeeded)

/-- One round of `updateFingerTable`. -/
def updateFingerTable (fuel : ℕ) (net : Network) (p : ℕ) : Option Network := do
  let fixed ← fixRows translate p fuel (List.finRange 32) net
  let stable ← stabilize translate fixed p
  let notified ← notify translate stable p
  heartBeat translate notified p

/-- When the turn of a row comes, no fingers lead from the node towards its start to a crashed
node. -/
def RowsClear (p : ℕ) : List (Fin 32) → Network → Prop
  | [], _ => True
  | i :: rows, net => ¬ DeadEnd net ((net.state p).finTb i).start p ∧
    ∀ path answer, Route net ((net.state p).finTb i).start p path answer →
      RowsClear p rows (fixFingers translate net p i answer)

end

variable {translate : ℕ → UInt32} {net : Network} {hash : UInt32} {p answer : ℕ}

/-- A route meets no dead end. -/
theorem Route.not_deadEnd {path : List ℕ} (route : Route net hash p path answer) :
    ¬ DeadEnd net hash p := by
  induction route with
  | answer ends =>
    intro dead
    cases dead with
    | here next _ => exact ends.not_forwards next
    | later next _ _ => exact ends.not_forwards next
  | forward next live rest ih =>
    intro dead
    cases dead with
    | here next' dead => exact dead (next.unique next' ▸ live)
    | later next' _ rest' => exact ih (next.unique next' ▸ rest')

/-- Without a dead end there is a route. -/
theorem route_of_not_deadEnd (keys : KnownKeys net) (start : p ∈ net.members)
    (clear : ¬ DeadEnd net hash p) : ∃ path answer, Route net hash p path answer := by
  induction distance : clockwise ringSize (net.position p) hash.toNat using Nat.strong_induction_on
    generalizing p with
  | _ distance ih =>
  rcases answers_or_forwards net hash p with ⟨answer, ends⟩ | ⟨f, next⟩
  · exact ⟨[p], answer, .answer ends⟩
  · by_cases live : f ∈ net.members
    · have closer := (keys.closer start next live).2
      have onward : ¬ DeadEnd net hash f := fun dead => clear (.later next live dead)
      obtain ⟨path, answer, rest⟩ := ih _ (distance ▸ closer) live onward rfl
      exact ⟨p :: path, answer, .forward next live rest⟩
    · exact absurd (.here next live) clear

/-- A lookup that is retried answers exactly when it has a route, whatever the number of rounds. -/
theorem retry_route_iff (translate : ℕ → UInt32) (ports : HasPorts net)
    (start : p ∈ net.members) (fuel rounds : ℕ) :
    retry (findClosestPort (find translate net fuel) (net.state p) hash) (rounds + 1) =
        some answer ↔ ∃ path, Route net hash p path answer ∧ path.length ≤ fuel + 1 := by
  rw [← findClosestPort_route_iff translate ports start fuel]
  constructor
  · intro ended
    exact retry_some ended
  · rintro ⟨found, some_⟩
    rw [found, retry, Option.bind_eq_bind, Option.bind_some, if_neg some_]

/-- The loop around a lookup ends exactly when no fingers lead to a crashed node. -/
theorem retryEnds_iff (sane : net.Sane translate) (start : p ∈ net.members) :
    RetryEnds translate net p hash ↔ ¬ DeadEnd net hash p := by
  constructor
  · rintro ⟨fuel, rounds, result, ended⟩
    cases rounds with
    | zero => cases ended
    | succ rounds =>
      obtain ⟨path, route, -⟩ :=
        (retry_route_iff translate sane.hasPorts start fuel rounds).mp ended
      exact route.not_deadEnd
  · intro clear
    obtain ⟨path, answer, route⟩ := route_of_not_deadEnd sane.knownKeys start clear
    exact ⟨path.length, 1, answer,
      (retry_route_iff translate sane.hasPorts start path.length 0).mpr
        ⟨path, route, Nat.le_succ _⟩⟩

/-! ## One pass over the finger table -/

/-- Refilling a row with the answer of a lookup keeps records sane. -/
theorem Network.Sane.fixFingers (sane : net.Sane translate) (start : p ∈ net.members) (i : Fin 32)
    {path : List ℕ} (route : Route net hash p path answer) :
    (fixFingers translate net p i answer).Sane translate :=
  sane.set ((sane.nodes p start).fixFinger i (route.isPort sane.hasPorts start))

/-- More fuel changes nothing. -/
theorem fixRows_mono {fuel more : ℕ} (enough : fuel ≤ more) (rows : List (Fin 32)) {net' : Network}
    (sane : net.Sane translate) (start : p ∈ net.members)
    (ran : fixRows translate p fuel rows net = some net') :
    fixRows translate p more rows net = some net' := by
  induction rows generalizing net with
  | nil => exact ran
  | cons i rows ih =>
    obtain ⟨answer, looked, rest⟩ := Option.bind_eq_some_iff.mp ran
    obtain ⟨path, route, short⟩ :=
      (retry_route_iff translate sane.hasPorts start fuel fuel).mp looked
    have again := (retry_route_iff translate sane.hasPorts start more more).mpr
      ⟨path, route, by omega⟩
    have later := ih (sane.fixFingers start i route) start rest
    exact Option.bind_eq_some_iff.mpr ⟨answer, again, later⟩

/-- The rows of a pass end exactly when every row is clear at its turn. -/
theorem fixRows_iff (rows : List (Fin 32)) (sane : net.Sane translate)
    (start : p ∈ net.members) :
    (∃ fuel net', fixRows translate p fuel rows net = some net' ∧ net'.Sane translate ∧
      net'.members = net.members) ↔ RowsClear translate p rows net := by
  induction rows generalizing net with
  | nil => exact ⟨fun _ => trivial, fun _ => ⟨0, net, rfl, sane, rfl⟩⟩
  | cons i rows ih =>
    constructor
    · rintro ⟨fuel, net', ran, sane', same⟩
      obtain ⟨answer, looked, rest⟩ := Option.bind_eq_some_iff.mp ran
      obtain ⟨path, route, -⟩ := (retry_route_iff translate sane.hasPorts start fuel fuel).mp looked
      refine ⟨route.not_deadEnd, fun path' answer' route' => ?_⟩
      rw [← (route.unique route').2]
      exact (ih (sane.fixFingers start i route) start).mp ⟨fuel, net', rest, sane', same⟩
    · rintro ⟨clear, onward⟩
      obtain ⟨path, answer, route⟩ := route_of_not_deadEnd sane.knownKeys start clear
      have sane' := sane.fixFingers start i route
      obtain ⟨fuel, net', ran, final, same⟩ := (ih sane' start).mpr (onward path answer route)
      have rest := fixRows_mono (Nat.le_add_right fuel path.length) rows sane' start ran
      have looked := (retry_route_iff translate sane.hasPorts start
        (fuel + path.length) (fuel + path.length)).mpr ⟨path, route, by omega⟩
      exact ⟨fuel + path.length, net', Option.bind_eq_some_iff.mpr ⟨answer, looked, rest⟩, final,
        same⟩

/-- The rows of a pass leave a sane network, when they end. -/
theorem fixRows_sane {fuel : ℕ} (rows : List (Fin 32)) {net' : Network}
    (sane : net.Sane translate) (start : p ∈ net.members)
    (ran : fixRows translate p fuel rows net = some net') :
    net'.Sane translate ∧ net'.members = net.members := by
  induction rows generalizing net with
  | nil =>
    rw [← Option.some.inj ran]
    exact ⟨sane, rfl⟩
  | cons i rows ih =>
    obtain ⟨answer, looked, rest⟩ := Option.bind_eq_some_iff.mp ran
    obtain ⟨path, route, -⟩ := (retry_route_iff translate sane.hasPorts start fuel fuel).mp looked
    have kept := ih (sane.fixFingers start i route) start rest
    exact kept

/-- Whatever nodes have crashed, the loop around each lookup of a node ends exactly when no fingers
lead from it to a crashed node, and a round of maintenance ends exactly when that is so for each row
at its turn. -/
theorem maintenance_ends_iff (translate : ℕ → UInt32) (net : Network)
    (sane : net.Sane translate) (p : ℕ) (live : p ∈ net.members) :
    (∀ hash, RetryEnds translate net p hash ↔ ¬ DeadEnd net hash p) ∧
      ((∃ fuel net', updateFingerTable translate fuel net p = some net') ↔
        RowsClear translate p (List.finRange 32) net) := by
  refine ⟨fun hash => retryEnds_iff sane live, ?_⟩
  rw [← fixRows_iff (List.finRange 32) sane live]
  constructor
  · rintro ⟨fuel, net', ran⟩
    obtain ⟨fixed, rows, -⟩ := Option.bind_eq_some_iff.mp ran
    have kept := fixRows_sane _ sane live rows
    exact ⟨fuel, fixed, rows, kept⟩
  · rintro ⟨fuel, fixed, rows, sane₁, same₁⟩
    obtain ⟨stable, ran₂, sane₂, same₂⟩ := sane₁.stabilize (same₁ ▸ live)
    obtain ⟨notified, ran₃, sane₃, same₃⟩ := sane₂.notify (same₂ ▸ same₁ ▸ live)
    obtain ⟨final, ran₄, -, -⟩ := sane₃.heartBeat (same₃ ▸ same₂ ▸ same₁ ▸ live)
    refine ⟨fuel, final, ?_⟩
    simp only [updateFingerTable, rows, ran₂, ran₃, ran₄, Option.bind_eq_bind, Option.bind_some]

/-! ## Behind a crash -/

/-- The keys of three ports, one next to the other. -/
def keyOfNext (port : ℕ) : UInt32 := if port = 4000 then 10 else if port = 5000 then 11 else 12

/-- A node of a settled ring of three, with the fingers of its first two rows. -/
def settledNode (port postnode postnode2 prenode first second : ℕ) : NodeState where
  localNode := nodeAt keyOfNext port
  postnode := nodeAt keyOfNext postnode
  postnode2 := nodeAt keyOfNext postnode2
  prenode := some (nodeAt keyOfNext prenode)
  finTb i := ⟨keyOfNext port + UInt32.ofNat (2 ^ i.val),
    nodeAt keyOfNext (if i.val = 0 then first else if i.val = 1 then second else 4000)⟩

/-- Three nodes with the keys 10, 11 and 12 on a settled ring, of which the last has crashed. -/
def lastCrashed : Network where
  members := {4000, 5000}
  state port :=
    if port = 4000 then settledNode 4000 5000 6000 6000 5000 6000
    else settledNode 5000 6000 4000 4000 6000 4000

/-- The records of the two nodes left are sane. -/
theorem lastCrashed_sane : lastCrashed.Sane keyOfNext := by
  have named (q : ℕ) (port : 0 < q ∧ q < 2 ^ 16) : IsRecord keyOfNext (nodeAt keyOfNext q) :=
    ⟨q, port, rfl⟩
  have node (port postnode postnode2 prenode first second : ℕ)
      (ports : ∀ q ∈ [postnode, postnode2, prenode, first, second], 0 < q ∧ q < 2 ^ 16) :
      (settledNode port postnode postnode2 prenode first second).Sane keyOfNext port := by
    simp only [List.mem_cons, List.not_mem_nil, or_false, forall_eq_or_imp, forall_eq] at ports
    obtain ⟨one, two, three, four, five⟩ := ports
    refine ⟨rfl, named _ one, named _ two, fun r holds => ?_, fun i => named _ ?_⟩
    · rw [← Option.some.inj holds]
      exact named _ three
    · split_ifs
      · exact four
      · exact five
      · decide
  constructor
  · show ∀ p ∈ lastCrashed.members, 0 < p ∧ p < 2 ^ 16
    decide
  · intro p live
    rcases Finset.mem_insert.mp live with rfl | other
    · exact node 4000 5000 6000 6000 5000 6000 (by decide)
    · rw [Finset.mem_singleton.mp other]
      exact node 5000 6000 4000 4000 6000 4000 (by decide)

/-- The loops of the first node end as long as no fingers lead to the crashed one. -/
theorem maintenance_ends_crashed :
    (∀ hash, RetryEnds keyOfNext lastCrashed 4000 hash ↔ ¬ DeadEnd lastCrashed hash 4000) ∧
      ((∃ fuel net', updateFingerTable keyOfNext fuel lastCrashed 4000 = some net') ↔
        RowsClear keyOfNext 4000 (List.finRange 32) lastCrashed) :=
  maintenance_ends_iff keyOfNext lastCrashed lastCrashed_sane 4000 (by decide)

/-- In the third row of its table the first node meets the crashed one and never comes to
stabilise. -/
theorem maintenance_spins : lastCrashed.Sane keyOfNext ∧ 4000 ∈ lastCrashed.members ∧
    ¬ RetryEnds keyOfNext lastCrashed 4000 14 ∧
      ¬ ∃ fuel net', updateFingerTable keyOfNext fuel lastCrashed 4000 = some net' := by
  have live : 4000 ∈ lastCrashed.members := by decide
  refine ⟨lastCrashed_sane, live, ?_, ?_⟩
  · rw [retryEnds_iff lastCrashed_sane live, not_not]
    have next : Forwards lastCrashed 14 4000 6000 := ⟨by decide, 1, by decide, rfl⟩
    exact .here next (by decide)
  · rintro ⟨fuel, net', ran⟩
    obtain ⟨fixed, rows, -⟩ := Option.bind_eq_some_iff.mp ran
    have kept := fixRows_sane _ lastCrashed_sane live rows
    have clear := (fixRows_iff _ lastCrashed_sane live).mp ⟨fuel, fixed, rows, kept⟩
    have split : List.finRange 32 = 0 :: 1 :: 2 :: (List.finRange 32).drop 3 := rfl
    rw [split] at clear
    -- the first two rows are refilled with the successor and with the crashed node behind it
    have first : Answers lastCrashed 11 4000 5000 := by decide
    have clear₁ := clear.2 [4000] 5000 (.answer first)
    have next : Forwards (fixFingers keyOfNext lastCrashed 4000 0 5000) 12 4000 5000 :=
      ⟨by decide, 0, by decide, rfl⟩
    have second : Answers (fixFingers keyOfNext lastCrashed 4000 0 5000) 12 5000 6000 := by decide
    have clear₂ := clear₁.2 [4000, 5000] 6000 (.forward next (by decide) (.answer second))
    have dead : Forwards (fixFingers keyOfNext
        (fixFingers keyOfNext lastCrashed 4000 0 5000) 4000 1 6000) 14 4000 6000 :=
      ⟨by decide, 1, by decide, rfl⟩
    exact clear₂.1 (.here dead (by decide))

end TinyTools.Chord
