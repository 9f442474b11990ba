import TinyTools.Chord.Breach

/-!
# Two neighbours crash at once

A ring of four nodes or more does not survive that two neighbours crash at once: once the node in
front of them has connected twice it is its own successor, and no exchange changes that again.
-/

namespace TinyTools.Chord

open TinyTools.Lib

variable {translate : ℕ → UInt32} {net : Network} {nodes survivors : Finset ℕ} {f g a c p q : ℕ}

/-- A node stabilises or notifies. -/
def Action.connects (a : ℕ) : Action → Bool
  | .stabilize p | .notify p => p = a
  | .heartBeat _ => false

/-- An exchange in which the node connects counts for one, up to two. -/
theorem Isolation.connections_after (stage : Isolation) (action : Action) :
    (stage.after a action).connections =
      min 2 (stage.connections + if action.connects a then 1 else 0) := by
  cases action with
  | heartBeat p => cases stage <;> rfl
  | stabilize p | notify p =>
    by_cases same : p = a
    · cases stage <;> simp [Isolation.after, Action.connects, same, Isolation.connections]
    · cases stage <;> simp [Isolation.after, Action.connects, same, Isolation.connections]

/-- So it is for exchanges one after another. -/
theorem Isolation.connections_foldl (stage : Isolation) (actions : List Action) :
    (actions.foldl (Isolation.after a) stage).connections =
      min 2 (stage.connections + actions.countP (Action.connects a)) := by
  induction actions generalizing stage with
  | nil => cases stage <;> rfl
  | cons action rest ih =>
    rw [List.foldl_cons, ih, Isolation.connections_after, List.countP_cons]
    omega

/-- Two connections isolate the node in front of the breach. -/
theorem Isolation.foldl_after (actions : List Action)
    (enough : 2 ≤ actions.countP (Action.connects a)) :
    actions.foldl (Isolation.after a) .first = .alone := by
  have last := Isolation.connections_foldl (a := a) .first actions
  rw [min_eq_left (enough.trans (Nat.le_add_left _ _))] at last
  cases reached : actions.foldl (Isolation.after a) .first with
  | alone => rfl
  | first =>
    rw [reached] at last
    cases last
  | second =>
    rw [reached] at last
    cases last

/-- Without two nodes that follow each other, the ring closes behind them. -/
theorem Precedes.across (distinct : Set.InjOn (ringKey translate) nodes) (four : 4 ≤ nodes.card)
    (crashed : f ∈ nodes) (front : a ∈ nodes) (before : Precedes translate nodes a f)
    (next : Precedes translate nodes f g) (next' : Precedes translate nodes g c) (apart : a ≠ f)
    (apart' : f ≠ g) (apart'' : g ≠ c) :
    a ≠ g ∧ c ≠ a ∧ Precedes translate ((nodes.erase f).erase g) a c := by
  have bound : ∀ x ∈ nodes, ringKey translate x < ringSize := fun x _ => ringKey_lt x
  -- with one of the two gone, the other one lies between their neighbours
  have single : Precedes translate (nodes.erase f) a g :=
    before.trans_erase bound distinct (ringKey_lt a) next apart'.symm
  have distinct' : Set.InjOn (ringKey translate) (nodes.erase f) :=
    distinct.mono (Finset.erase_subset ..)
  have three := Finset.card_erase_of_mem crashed
  have live : a ∈ nodes.erase f := Finset.mem_erase.mpr ⟨apart, front⟩
  have away : a ≠ g := by
    intro same
    rw [← same] at single
    have few := single.single distinct' live
    omega
  have behind : c ≠ f := by
    intro same
    rw [same] at next'
    exact away (before.start_unique distinct front next.1 next')
  have onward : Precedes translate (nodes.erase f) g c :=
    next'.mono (Finset.erase_subset ..) (Finset.mem_erase.mpr ⟨behind, next'.1⟩)
  have closed : Precedes translate ((nodes.erase f).erase g) a c :=
    single.trans_erase (fun x _ => ringKey_lt x) distinct' (ringKey_lt a) onward apart''.symm
  have other : c ≠ a := by
    intro same
    rw [same] at closed
    have few := closed.single (distinct'.mono (Finset.erase_subset ..))
      (Finset.mem_erase.mpr ⟨away, live⟩)
    have more := Finset.card_erase_of_mem single.1
    omega
  exact ⟨away, other, closed⟩

/-- Two crashed neighbours leave a breach that their neighbours still point across. -/
theorem IsCircle.breach (circle : IsCircle translate net) (four : 4 ≤ net.members.card)
    (crashed : f ∈ net.members) (next : Precedes translate net.members f g)
    (front : a ∈ net.members) (before : Precedes translate net.members a f) :
    ∃ c, IsBreach translate ((net.members.erase f).erase g) f g a c ∧
      ((net.crash f).crash g).IsSplit translate ((net.members.erase f).erase g) f g a c .first := by
  have two : 2 ≤ net.members.card := by omega
  have distinct := circle.distinct
  have apart := circle.apart two front before
  have apart' := circle.apart two crashed next
  obtain ⟨c, next', -⟩ := (circle.neighbours g next.1).1
  have apart'' := circle.apart two next.1 next'
  obtain ⟨away, other, across⟩ :=
    Precedes.across distinct four crashed front before next next' apart apart' apart''
  have kept : (net.members.erase f).erase g ⊆ net.members :=
    (Finset.erase_subset ..).trans (Finset.erase_subset ..)
  have inside : ∀ x ∈ net.members, x ≠ f → x ≠ g → x ∈ (net.members.erase f).erase g :=
    fun x member other other' => Finset.mem_erase.mpr ⟨other', Finset.mem_erase.mpr ⟨other, member⟩⟩
  have outside : ∀ x ∈ (net.members.erase f).erase g, x ≠ f ∧ x ≠ g := fun x survives =>
    ⟨Finset.ne_of_mem_erase (Finset.mem_of_mem_erase survives), Finset.ne_of_mem_erase survives⟩
  have front' : a ∈ (net.members.erase f).erase g := inside a front apart away
  have gap : IsGap translate ((net.members.erase f).erase g) f a c :=
    ⟨fun x survives => circle.ports x (kept survives), circle.ports f crashed,
      distinct.mono kept, fun survives => (outside f survives).1 rfl, front', across⟩
  have post : (net.state a).postnode = nodeAt translate f := by
    obtain ⟨q, after, post⟩ := (circle.neighbours a front).1
    exact after.unique distinct before ▸ post
  have post2 : (net.state a).postnode2 = nodeAt translate g := by
    obtain ⟨q, r, after, after', second⟩ := circle.postnode2 a front
    rw [after.unique distinct before] at after'
    exact after'.unique distinct next ▸ second
  -- predecessors of survivors survive, except behind the breach
  have pre : ∀ q ∈ (net.members.erase f).erase g, q ≠ c →
      ∃ p ∈ (net.members.erase f).erase g, Precedes translate ((net.members.erase f).erase g) p q ∧
        (net.state q).prenode = some (nodeAt translate p) := by
    intro q survives past
    obtain ⟨p, member, after, known⟩ := (circle.neighbours q (kept survives)).2
    have first : p ≠ f := by
      intro same
      rw [same] at after
      exact (outside q survives).2 (after.unique distinct next)
    have second : p ≠ g := by
      intro same
      rw [same] at after
      exact past (after.unique distinct next')
    exact ⟨p, inside p member first second, after.mono kept survives, known⟩
  refine ⟨c, ⟨gap, circle.ports g next.1, fun survives => (outside g survives).2 rfl, other⟩,
    rfl, fun x survives => circle.self x (kept survives), fun x survives past => ?_,
    fun x survives _ past => pre x survives past, fun r known => ?_,
    post, post2, pre a front' other.symm⟩
  · obtain ⟨q, after, post⟩ := (circle.neighbours x (kept survives)).1
    have first : q ≠ f := by
      intro same
      rw [same] at after
      exact past (after.start_unique distinct (kept survives) front before)
    have second : q ≠ g := by
      intro same
      rw [same] at after
      exact (outside x survives).1 (after.start_unique distinct (kept survives) crashed next)
    exact ⟨q, after.mono kept (inside q after.1 first second), post⟩
  · obtain ⟨p, member, after, pre⟩ := (circle.neighbours c next'.1).2
    rw [after.start_unique distinct member next.1 next'] at pre
    exact Option.some.inj (known.symm.trans pre)

/-- In front of the breach the right successor is never known. -/
theorem Network.IsSplit.lost (breach : IsBreach translate survivors f g a c)
    (at_ : net.IsSplit translate survivors f g a c stage)
    (next : Precedes translate survivors a q) : (net.state a).postnode ≠ nodeAt translate q := by
  intro post
  have live : q ∈ survivors := next.1
  have front := at_.front
  cases stage with
  | first =>
    have same : f = q := congrArg Node.port (front.1.symm.trans post)
    exact breach.crashed (same ▸ live)
  | second =>
    have same : g = q := congrArg Node.port (front.1.symm.trans post)
    exact breach.crashed' (same ▸ live)
  | alone =>
    have same : a = q := congrArg Node.port (front.1.symm.trans post)
    exact breach.apart ((breach.across.unique breach.distinct next).trans same.symm)

/-- Two neighbours of a ring of four or more nodes crash before the first crash is repaired. However
the survivors interleave their exchanges, all of them end, every survivor but the one in front of
the two keeps its right successor, and that one never finds the ring again: once it has stabilised
or notified twice it is its own successor. -/
theorem adjacent_crashes_split (translate : ℕ → UInt32) (net : Network)
    (circle : IsCircle translate net) (four : 4 ≤ net.members.card) (f g a : ℕ)
    (crashed : f ∈ net.members) (next : Precedes translate net.members f g)
    (front : a ∈ net.members) (before : Precedes translate net.members a f)
    (actions : List Action)
    (live : ∀ action ∈ actions, action.node ∈ (net.members.erase f).erase g) :
    ∃ net', runActions translate actions ((net.crash f).crash g) = some net' ∧
      net'.members = (net.members.erase f).erase g ∧
        (∀ p ∈ net'.members, (∃ q, Precedes translate net'.members p q ∧
          (net'.state p).postnode = nodeAt translate q) ↔ p ≠ a) ∧
            (2 ≤ actions.countP (Action.connects a) →
              (net'.state a).postnode = nodeAt translate a) := by
  obtain ⟨c, breach, split⟩ := circle.breach four crashed next front before
  obtain ⟨net', ran, at_⟩ := split.actions breach actions live
  refine ⟨net', ran, at_.members, fun p survives => ?_, fun enough => ?_⟩
  · rw [at_.members] at survives ⊢
    constructor
    · rintro ⟨q, after, post⟩ same
      rw [same] at after post
      exact at_.lost breach after post
    · exact at_.postnode p survives
  · rw [Isolation.foldl_after actions enough] at at_
    exact at_.front.1

/-- Four nodes whose ports are their keys and which know their neighbours. -/
def circleOfFour : Network where
  members := {1, 2, 3, 4}
  state port :=
    { localNode := nodeAt UInt32.ofNat port
      postnode := nodeAt UInt32.ofNat (port % 4 + 1)
      postnode2 := nodeAt UInt32.ofNat ((port + 1) % 4 + 1)
      prenode := some (nodeAt UInt32.ofNat ((port + 2) % 4 + 1))
      finTb _ := ⟨0, nodeAt UInt32.ofNat port⟩ }

/-- The second and the third of four nodes crash. -/
theorem adjacent_crashes_split_four : ∃ net',
    runActions UInt32.ofNat [.stabilize 1, .heartBeat 4, .notify 4, .notify 1]
        ((circleOfFour.crash 2).crash 3) = some net' ∧
      net'.members = (circleOfFour.members.erase 2).erase 3 ∧
        (¬ ∃ p ∈ net'.members, ¬ ((∃ q, Precedes UInt32.ofNat net'.members p q ∧
          (net'.state p).postnode = nodeAt UInt32.ofNat q) ↔ p ≠ 1)) ∧
            (net'.state 1).postnode = nodeAt UInt32.ofNat 1 := by
  have next : ∀ p ∈ circleOfFour.members, ∃ q ∈ circleOfFour.members,
      ∃ r ∈ circleOfFour.members, ∃ o ∈ circleOfFour.members,
        Precedes UInt32.ofNat circleOfFour.members p q ∧
        Precedes UInt32.ofNat circleOfFour.members q r ∧
        Precedes UInt32.ofNat circleOfFour.members o p ∧
          (circleOfFour.state p).postnode = nodeAt UInt32.ofNat q ∧
            (circleOfFour.state p).postnode2 = nodeAt UInt32.ofNat r ∧
              (circleOfFour.state p).prenode = some (nodeAt UInt32.ofNat o) := by decide +kernel
  have distinct : ∀ p ∈ circleOfFour.members, ∀ q ∈ circleOfFour.members,
      ringKey UInt32.ofNat p = ringKey UInt32.ofNat q → p = q := by decide
  have ports : ∀ p ∈ circleOfFour.members, 0 < p ∧ p < 2 ^ 16 := by decide
  have circle : IsCircle UInt32.ofNat circleOfFour := by
    refine ⟨ports, fun p hp q hq => distinct p hp q hq, fun p _ => rfl, fun p live => ?_,
      fun p live => ?_⟩
    · obtain ⟨q, -, r, -, o, member, after, -, before, post, -, pre⟩ := next p live
      exact ⟨⟨q, after, post⟩, o, member, before, pre⟩
    · obtain ⟨q, -, r, -, o, -, after, after', -, -, second, -⟩ := next p live
      exact ⟨q, r, after, after', second⟩
  obtain ⟨net', ran, members, split, alone⟩ := adjacent_crashes_split UInt32.ofNat circleOfFour
    circle (by decide) 2 3 1 (by decide) (by decide) (by decide) (by decide)
    [.stabilize 1, .heartBeat 4, .notify 4, .notify 1] (by decide)
  refine ⟨net', ran, members, ?_, alone (by decide)⟩
  rintro ⟨p, member, other⟩
  exact other (split p member)

end TinyTools.Chord
