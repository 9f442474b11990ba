import TinyTools.Chord.Ring

/-!
# When a neighbour is replaced

`stabilize` and the `notify` branch each compare three keys to decide whether a node lies between
two others on the ring. They agree with the circular interval, except that a node that is its own
neighbour takes in nobody.
-/

namespace TinyTools.Chord

open TinyTools.Lib

variable (translate : ℕ → UInt32)

/-- The records of a node hold ports with their keys. -/
structure NodeState.Named (s : NodeState) : Prop where
  /-- The node itself. -/
  self : s.localNode = nodeAt translate s.localNode.port
  /-- The successor. -/
  postnode : s.postnode = nodeAt translate s.postnode.port
  /-- The predecessor, when one is known. -/
  prenode : ∀ r ∈ s.prenode, r = nodeAt translate r.port

/-- The ports of a node, its neighbours and another one have different keys. -/
def NodeState.Distinct (s : NodeState) (x : ℕ) : Prop :=
  ∀ p ∈ s.localNode.port :: s.postnode.port :: x :: (s.prenode.map Node.port).toList,
    ∀ q ∈ s.localNode.port :: s.postnode.port :: x :: (s.prenode.map Node.port).toList,
      translate p = translate q → p = q

/-- A successor that reports a port is replaced by it exactly when the port lies strictly between
the node and the successor. -/
def StabilizeFollows (s : NodeState) (x : ℕ) : Prop :=
  stabilizeReply translate s (decimal x) =
    if Between ringSize s.localNode.key.toNat (ringKey translate x) s.postnode.key.toNat then
      { s with postnode := nodeAt translate x }
    else s

/-- A known predecessor is replaced by the sender exactly when the sender lies strictly between the
predecessor and the node. -/
def NotifyFollows (s : NodeState) (x : ℕ) : Prop :=
  ∀ r ∈ s.prenode, handleNotify translate s x =
    if Between ringSize r.key.toNat (ringKey translate x) s.localNode.key.toNat then
      { s with prenode := some (nodeAt translate x) }
    else s

variable {translate} {s : NodeState} {x : ℕ}

/-- Every other key lies in the interval of a node that is its own neighbour. -/
theorem between_self {size a x : ℕ} (ha : a < size) (hx : x < size) (apart : x ≠ a) :
    Between size a x a := by
  refine ⟨apart, ?_⟩
  rw [around_self]
  exact clockwise_lt ha hx

/-- `stabilize` follows the interval where the successor is another node. -/
theorem stabilizeFollows_of_ne (apart : s.postnode.key ≠ s.localNode.key)
    (self : x = s.localNode.port ↔ translate x = s.localNode.key) (valid : 0 < x ∧ x < 2 ^ 16) :
    StabilizeFollows translate s x := by
  have hk := s.localNode.key.toNat_lt
  have hs := s.postnode.key.toNat_lt
  have hx := (translate x).toNat_lt
  unfold StabilizeFollows stabilizeReply
  simp only [readPort_decimal valid.2, if_pos valid.1, gt_iff_lt, UInt32.lt_iff_toNat_lt, ne_eq,
    self, ← UInt32.toNat_inj] at apart ⊢
  unfold Between around clockwise ringSize ringKey
  split_ifs <;> first | rfl | omega

/-- The `notify` branch follows the interval where the predecessor is another node. -/
theorem handleNotify_of_ne {r : Node} (known : s.prenode = some r)
    (apart : r.key ≠ s.localNode.key) : handleNotify translate s x =
      if Between ringSize r.key.toNat (ringKey translate x) s.localNode.key.toNat then
        { s with prenode := some (nodeAt translate x) }
      else s := by
  have hk := s.localNode.key.toNat_lt
  have hr := r.key.toNat_lt
  have hx := (translate x).toNat_lt
  unfold handleNotify
  simp only [known, gt_iff_lt, UInt32.lt_iff_toNat_lt, ne_eq, ← UInt32.toNat_inj] at apart ⊢
  unfold Between around clockwise ringSize ringKey
  split_ifs <;> first | rfl | omega

/-- A node that is its own successor keeps it whatever is reported. -/
theorem stabilizeReply_alone (alone : s.postnode.key = s.localNode.key) (reply : Bytes) :
    stabilizeReply translate s reply = s := by
  unfold stabilizeReply
  simp only [alone, gt_iff_lt, UInt32.lt_irrefl, false_and, if_false, ite_self]

/-- A node that is its own predecessor keeps it whoever announces itself. -/
theorem handleNotify_alone {r : Node} (known : s.prenode = some r)
    (alone : r.key = s.localNode.key) : handleNotify translate s x = s := by
  unfold handleNotify
  simp only [known, alone, gt_iff_lt, UInt32.lt_irrefl, false_and, if_false]

/-- A node that is its own neighbour, and stays so, follows the interval for its own port only:
every other one lies in it. -/
theorem alone_iff {next : NodeState} (self : x = s.localNode.port ↔ translate x = s.localNode.key)
    (changes : next = s → x = s.localNode.port) :
    (s = if Between ringSize s.localNode.key.toNat (ringKey translate x) s.localNode.key.toNat then
        next else s) ↔ x = s.localNode.port := by
  constructor
  · intro follows
    by_contra other
    have inside :
        Between ringSize s.localNode.key.toNat (ringKey translate x) s.localNode.key.toNat := by
      apply between_self s.localNode.key.toNat_lt (ringKey_lt x)
      intro same
      exact other (self.mpr (UInt32.toNat_inj.mp same))
    rw [if_pos inside] at follows
    exact other (changes follows.symm)
  · intro own
    apply (if_neg _).symm
    rintro ⟨apart, -⟩
    exact apart (congrArg UInt32.toNat (self.mp own))

/-- The neighbour updates follow the circular interval exactly where the neighbour is another node
or the port is the node's own. -/
theorem neighboursFollow_iff (named : s.Named translate) (distinct : s.Distinct translate x)
    (valid : 0 < x ∧ x < 2 ^ 16) :
    (StabilizeFollows translate s x ↔
      s.postnode.port ≠ s.localNode.port ∨ x = s.localNode.port) ∧
    (NotifyFollows translate s x ↔
      (∀ r ∈ s.prenode, r.port ≠ s.localNode.port) ∨ x = s.localNode.port) := by
  have keyOf (p q : ℕ)
      (hp : p ∈ s.localNode.port :: s.postnode.port :: x :: (s.prenode.map Node.port).toList)
      (hq : q ∈ s.localNode.port :: s.postnode.port :: x :: (s.prenode.map Node.port).toList) :
      translate p = translate q ↔ p = q := ⟨distinct p hp q hq, congrArg translate⟩
  have localKey : s.localNode.key = translate s.localNode.port := congrArg Node.key named.self
  have postKey : s.postnode.key = translate s.postnode.port := congrArg Node.key named.postnode
  have selfKey : x = s.localNode.port ↔ translate x = s.localNode.key := by
    rw [localKey]
    exact (keyOf _ _ (by simp) (by simp)).symm
  constructor
  · by_cases alone : s.postnode.port = s.localNode.port
    · have keys : s.postnode.key = s.localNode.key := by rw [postKey, localKey, alone]
      have kept : stabilizeReply translate s (decimal x) = s :=
        stabilizeReply_alone keys (decimal x)
      have changes : { s with postnode := nodeAt translate x } = s → x = s.localNode.port := by
        intro same
        have ports : x = s.postnode.port :=
          congrArg (fun state : NodeState => state.postnode.port) same
        exact ports.trans alone
      unfold StabilizeFollows
      rw [kept, keys, alone_iff selfKey changes]
      exact (or_iff_right (not_not.mpr alone)).symm
    · have keys : s.postnode.key ≠ s.localNode.key := by
        rw [postKey, localKey]
        exact fun same => alone ((keyOf _ _ (by simp) (by simp)).mp same)
      exact iff_of_true (stabilizeFollows_of_ne keys selfKey valid) (Or.inl alone)
  · unfold NotifyFollows
    cases known : s.prenode with
    | none => exact iff_of_true (by simp) (Or.inl (by simp))
    | some r =>
      have preKey : r.key = translate r.port := congrArg Node.key (named.prenode r known)
      simp only [Option.mem_some_iff, forall_eq']
      by_cases alone : r.port = s.localNode.port
      · have keys : r.key = s.localNode.key := by rw [preKey, localKey, alone]
        have changes : { s with prenode := some (nodeAt translate x) } = s →
            x = s.localNode.port := by
          intro same
          have ports : some x = s.prenode.map Node.port :=
            congrArg (fun state : NodeState => state.prenode.map Node.port) same
          rw [known] at ports
          exact (Option.some.inj ports).trans alone
        rw [handleNotify_alone known keys, keys, alone_iff selfKey changes]
        exact (or_iff_right (not_not.mpr alone)).symm
      · have keys : r.key ≠ s.localNode.key := by
          rw [preKey, localKey]
          exact fun same => alone ((keyOf _ _ (by simp [known]) (by simp)).mp same)
        exact iff_of_true (handleNotify_of_ne known keys) (Or.inl alone)

/-- A node between its successor and its predecessor on a ring of four. -/
def amongFour : NodeState where
  localNode := nodeAt UInt32.ofNat 4
  postnode := nodeAt UInt32.ofNat 1
  postnode2 := nodeAt UInt32.ofNat 2
  prenode := some (nodeAt UInt32.ofNat 2)
  finTb _ := ⟨0, nodeAt UInt32.ofNat 4⟩

/-- A node that wraps past zero to its successor keeps it when a port in front of itself is
reported, and takes the port in as its predecessor. -/
theorem neighboursFollow_iff_wraps : StabilizeFollows UInt32.ofNat amongFour 3 ∧
    NotifyFollows UInt32.ofNat amongFour 3 := by
  have named : amongFour.Named UInt32.ofNat := by
    refine ⟨rfl, rfl, fun r known => ?_⟩
    obtain rfl := Option.some.inj known
    rfl
  have distinct : amongFour.Distinct UInt32.ofNat 3 := by
    unfold NodeState.Distinct
    decide +kernel
  obtain ⟨stabilize, notify⟩ := neighboursFollow_iff named distinct (by decide : 0 < 3 ∧ 3 < 2 ^ 16)
  refine ⟨stabilize.mpr (Or.inl (by decide)), notify.mpr (Or.inl fun r known => ?_)⟩
  obtain rfl := Option.some.inj known
  decide

/-- The node that a ring begins with has itself on both sides, and takes in no live neighbour that
its successor reports or that announces itself. -/
theorem not_neighboursFollow_alone :
    let s := creatFirstNode (startNode UInt32.ofNat ⟨0, 0⟩ 1)
    s.Named UInt32.ofNat ∧ s.Distinct UInt32.ofNat 2 ∧
      ¬ StabilizeFollows UInt32.ofNat s 2 ∧ ¬ NotifyFollows UInt32.ofNat s 2 := by
  intro s
  have inside : Between ringSize s.localNode.key.toNat (ringKey UInt32.ofNat 2)
      s.localNode.key.toNat := by decide +kernel
  refine ⟨⟨rfl, rfl, fun r known => ?_⟩, ?_, fun follows => ?_, fun follows => ?_⟩
  · obtain rfl := Option.some.inj known
    rfl
  · unfold NodeState.Distinct
    decide +kernel
  · unfold StabilizeFollows at follows
    rw [stabilizeReply_alone rfl, if_pos (show Between _ _ _ s.postnode.key.toNat from inside)]
      at follows
    exact absurd (congrArg (fun state : NodeState => state.postnode.port) follows) (by decide)
  · have told := follows s.localNode rfl
    rw [handleNotify_alone rfl rfl, if_pos inside] at told
    exact absurd (congrArg (fun state : NodeState => state.prenode.map Node.port) told) (by decide)

end TinyTools.Chord
