import Mathlib.Algebra.Order.BigOperators.Group.Finset
import Mathlib.Order.Filter.AtTopBot.Basic
import TinyTools.Lib.PointerRing

/-!
# Pointers that come to rest

Each element of a ring counts the others that lie behind its successor pointer and those that lie
in front of its predecessor pointer. An element that is adopted or announced lowers the count, so
only so many changes are possible. Where none is left, every successor knows who points to it, no
two elements share a successor, and the one cycle of the ring takes in all elements.
-/

namespace TinyTools.Lib

open Filter Function

/-! ## Runs -/

section

variable {σ : Type} {run : ℕ → σ}

/-- A run in which every change lowers a measure changes for the last time. -/
theorem eventually_constant {measure : σ → ℕ}
    (falls : ∀ᶠ k in atTop, run (k + 1) = run k ∨ measure (run (k + 1)) < measure (run k)) :
    ∃ s, ∀ᶠ k in atTop, run k = s := by
  obtain ⟨start, later⟩ := eventually_atTop.mp falls
  -- the least measure is met at a time after which nothing changes
  induction least : measure (run start) using Nat.strong_induction_on generalizing start with
  | _ least ih =>
  by_cases changes : ∃ k ≥ start, run (k + 1) ≠ run k
  · obtain ⟨k, past, change⟩ := changes
    have lowered : ∀ k ≥ start, measure (run k) ≤ measure (run start) := by
      intro k past
      induction k, past using Nat.le_induction with
      | base => exact le_rfl
      | succ k past below =>
        rcases later k past with same | less
        · rwa [same]
        · exact less.le.trans below
    have less := (later k past).resolve_left change
    have below := lowered k past
    apply ih _ (by omega) (k + 1) (fun j past' => later j (by omega)) rfl
  · have still : ∀ k ≥ start, run k = run start := by
      intro k past
      induction k, past using Nat.le_induction with
      | base => rfl
      | succ k past same =>
        by_contra change
        exact changes ⟨k, past, fun equal => change (equal.trans same)⟩
    exact ⟨run start, eventually_atTop.mpr ⟨start, still⟩⟩

/-- What every late step keeps and some late step brings about holds from some time on. -/
theorem eventually_of_kept {holds : ℕ → Prop} (kept : ∀ᶠ k in atTop, holds k → holds (k + 1))
    (brought : ∃ᶠ k in atTop, holds (k + 1)) : ∀ᶠ k in atTop, holds k := by
  obtain ⟨start, later⟩ := eventually_atTop.mp kept
  obtain ⟨k, past, first⟩ := frequently_atTop.mp brought start
  apply eventually_atTop.mpr
  refine ⟨k + 1, fun j after => ?_⟩
  induction j, after using Nat.le_induction with
  | base => exact first
  | succ j after ih => exact later j (by omega) ih

end

/-! ## Room for changes -/

variable {α : Type} {size : ℕ} {key : α → ℕ}

/-- The elements that lie strictly between two keys. -/
def gap (size : ℕ) (key : α → ℕ) (members : Finset α) (a b : ℕ) : Finset α :=
  members.filter fun x => Between size a (key x) b

/-- The elements between an element and its successor. -/
def Pointers.ahead (size : ℕ) (key : α → ℕ) (s : Pointers α) (p : α) : ℕ :=
  (gap size key s.members (key p) (key (s.next p))).card

/-- The elements between an element and its predecessor, all of them when none is known. -/
def Pointers.behind (size : ℕ) (key : α → ℕ) (s : Pointers α) (q : α) : ℕ :=
  match s.prev q with
  | none => s.members.card
  | some r => (gap size key s.members (key r) (key q)).card

/-- The changes that the pointers have room for. -/
def Pointers.slack (size : ℕ) (key : α → ℕ) (s : Pointers α) : ℕ :=
  ∑ p ∈ s.members, s.ahead size key p + ∑ q ∈ s.members, s.behind size key q

/-- An element finds that the predecessor of its successor lies in between. -/
def Pointers.Adopts (size : ℕ) (key : α → ℕ) (s : Pointers α) (p x : α) : Prop :=
  s.prev (s.next p) = some x ∧ Between size (key p) (key x) (key (s.next p))

/-- An element lies between its successor and the predecessor known there, if any. -/
def Pointers.Announces (size : ℕ) (key : α → ℕ) (s : Pointers α) (p : α) : Prop :=
  ∀ r, s.prev (s.next p) = some r → Between size (key r) (key p) (key (s.next p))

/-- No pointer can change. -/
def Pointers.IsStill (size : ℕ) (key : α → ℕ) (s : Pointers α) : Prop :=
  ∀ p ∈ s.members, (∀ x, ¬ s.Adopts size key p x) ∧ ¬ s.Announces size key p

/-- Every element points to the next one, which points back. -/
structure Pointers.IsClosed (size : ℕ) (key : α → ℕ) (s : Pointers α) : Prop where
  /-- The successor is the element met next. -/
  next : ∀ p ∈ s.members, IsNext size key s.members (key p) (s.next p)
  /-- The successor knows the element. -/
  prev : ∀ p ∈ s.members, s.prev (s.next p) = some p

section

variable {members : Finset α} {a b : ℕ} {x : α}

/-- The members that lie in a gap. -/
theorem mem_gap : x ∈ gap size key members a b ↔ x ∈ members ∧ Between size a (key x) b :=
  Finset.mem_filter

/-- The start of a gap is not in it. -/
theorem not_mem_gap_start (p : α) : p ∉ gap size key members (key p) b := by
  intro inside
  exact (mem_gap.mp inside).2.1 rfl

/-- The end of a gap is not in it. -/
theorem not_mem_gap_end : x ∉ gap size key members a (key x) := by
  intro inside
  obtain ⟨-, apart, before⟩ := mem_gap.mp inside
  rw [around_of_ne apart.symm] at before
  omega

/-- A gap holds no more than all members. -/
theorem gap_card_le : (gap size key members a b).card ≤ members.card :=
  Finset.card_le_card (Finset.filter_subset ..)

/-- An element of a gap leaves less of it in front. -/
theorem gap_front_lt (inside : x ∈ members) (between : Between size a (key x) b) :
    (gap size key members a (key x)).card < (gap size key members a b).card := by
  apply Finset.card_lt_card
  refine Finset.ssubset_iff_of_subset ?_ |>.mpr ⟨x, mem_gap.mpr ⟨inside, between⟩, ?_⟩
  · intro y member
    obtain ⟨live, apart, before⟩ := mem_gap.mp member
    rw [around_of_ne between.1.symm] at before
    exact mem_gap.mpr ⟨live, apart, before.trans between.2⟩
  · exact not_mem_gap_end

/-- An element of a gap leaves less of it behind. -/
theorem gap_back_lt (bound : ∀ y, key y < size) (ha : a < size) (hb : b < size)
    (inside : x ∈ members) (between : Between size a (key x) b) :
    (gap size key members (key x) b).card < (gap size key members a b).card := by
  apply Finset.card_lt_card
  refine Finset.ssubset_iff_of_subset ?_ |>.mpr ⟨x, mem_gap.mpr ⟨inside, between⟩, ?_⟩
  · intro y member
    obtain ⟨live, apart, before⟩ := mem_gap.mp member
    have hx := bound x
    have hy := bound y
    refine mem_gap.mpr ⟨live, ?_⟩
    obtain ⟨apart', before'⟩ := between
    unfold Between around clockwise at *
    split_ifs at * <;> omega
  · exact not_mem_gap_start x

end

/-! ## Changes -/

variable [DecidableEq α] {s : Pointers α} {p x : α}

/-- The pointers after an adoption. -/
def Pointers.adopt (s : Pointers α) (p x : α) : Pointers α :=
  ⟨s.members, update s.next p x, s.prev⟩

/-- The pointers after an announcement. -/
def Pointers.announce (s : Pointers α) (p : α) : Pointers α :=
  ⟨s.members, s.next, update s.prev (s.next p) (some p)⟩

/-- A sum falls when one of its terms does and no other grows. -/
theorem sum_update_lt {members : Finset α} {before after : α → ℕ} (inside : p ∈ members)
    (less : after p < before p) (same : ∀ q ∈ members, q ≠ p → after q = before q) :
    ∑ q ∈ members, after q < ∑ q ∈ members, before q := by
  refine Finset.sum_lt_sum (fun q member => ?_) ⟨p, inside, less⟩
  by_cases here : q = p
  · rw [here]
    exact less.le
  · exact (same q member here).le

/-- An adoption takes up room. -/
theorem Pointers.IsSafe.slack_adopt (safe : s.IsSafe size key)
    (member : p ∈ s.members) (adopts : s.Adopts size key p x) :
    (s.adopt p x).slack size key < s.slack size key := by
  obtain ⟨known, between⟩ := adopts
  have adopted := (safe.sound _ (safe.closed p member) x known).1
  have fewer : ∑ q ∈ s.members, (s.adopt p x).ahead size key q <
      ∑ q ∈ s.members, s.ahead size key q := by
    apply sum_update_lt member
    · simp only [ahead, Pointers.adopt, update_self]
      exact gap_front_lt adopted between
    · intro q _ other
      simp only [ahead, Pointers.adopt, update_of_ne other]
  have same : ∀ q, (s.adopt p x).behind size key q = s.behind size key q := fun q => rfl
  simp only [slack, same]
  exact Nat.add_lt_add_right fewer _

/-- An announcement takes up room. -/
theorem Pointers.IsSafe.slack_announce (safe : s.IsSafe size key) (bound : ∀ y, key y < size)
    (member : p ∈ s.members) (announces : s.Announces size key p) :
    (s.announce p).slack size key < s.slack size key := by
  have fewer : ∑ q ∈ s.members, (s.announce p).behind size key q <
      ∑ q ∈ s.members, s.behind size key q := by
    apply sum_update_lt (safe.closed p member)
    · simp only [behind, Pointers.announce, update_self]
      cases known : s.prev (s.next p) with
      | none =>
        apply Finset.card_lt_card
        exact (Finset.ssubset_iff_of_subset (Finset.filter_subset ..)).mpr
          ⟨p, member, not_mem_gap_start p⟩
      | some r => exact gap_back_lt bound (bound r) (bound _) member (announces r known)
    · intro q _ other
      simp only [behind, Pointers.announce, update_of_ne other]
  have same : ∀ q, (s.announce p).ahead size key q = s.ahead size key q := fun q => rfl
  simp only [slack, same]
  exact Nat.add_lt_add_left fewer _

omit [DecidableEq α] in
/-- There is room for so many changes. -/
theorem Pointers.slack_le (s : Pointers α) : s.slack size key ≤ 2 * s.members.card ^ 2 := by
  have ahead : ∑ q ∈ s.members, s.ahead size key q ≤ s.members.card * s.members.card := by
    apply Finset.sum_le_card_nsmul
    intro q _
    exact gap_card_le
  have behind : ∑ q ∈ s.members, s.behind size key q ≤ s.members.card * s.members.card := by
    apply Finset.sum_le_card_nsmul
    intro q _
    unfold Pointers.behind
    cases s.prev q with
    | none => exact le_rfl
    | some r => exact gap_card_le
  rw [slack, pow_two]
  omega

/-! ## At rest -/

/-- Of two elements that point to the same one, one lies between the other and it. -/
theorem between_or_between {a b c : ℕ} (ha : a < size) (hb : b < size) (hc : c < size)
    (apart : a ≠ b) (awayA : a ≠ c) (awayB : b ≠ c) :
    Between size a b c ∨ Between size b a c := by
  unfold Between around clockwise
  split_ifs <;> omega

omit [DecidableEq α] in
/-- Only an element without any other is its own successor. -/
theorem Pointers.IsSafe.next_ne (safe : s.IsSafe size key) (member : p ∈ s.members)
    (other : x ∈ s.members) (apart : p ≠ x) : s.next p ≠ p := by
  intro self
  have only := (safe.lone p member self).1
  rw [only, Finset.mem_singleton] at other
  exact apart other.symm

omit [DecidableEq α] in
/-- At rest every successor knows who points to it. -/
theorem Pointers.IsSafe.prev_next (safe : s.IsSafe size key) (bound : ∀ y, key y < size)
    (still : s.IsStill size key) (member : p ∈ s.members) : s.prev (s.next p) = some p := by
  obtain ⟨adopts, announces⟩ := still p member
  have target := safe.closed p member
  cases known : s.prev (s.next p) with
  | none => exact absurd (fun r holds => by rw [known] at holds; cases holds) announces
  | some r =>
    obtain ⟨live, back⟩ := safe.sound _ target r known
    by_contra other
    have apart : r ≠ p := fun same => other (congrArg some same)
    have keys {x y : α} (hx : x ∈ s.members) (hy : y ∈ s.members) (ne : x ≠ y) : key x ≠ key y :=
      fun same => ne (safe.distinct hx hy same)
    have awayP := keys member target (safe.next_ne member live apart.symm).symm
    have awayR : key r ≠ key (s.next p) := by
      have moved := safe.next_ne live member apart
      rw [back] at moved
      exact keys live target moved.symm
    rcases between_or_between (bound p) (bound r) (bound _) (keys member live apart.symm) awayP
      awayR with between | between
    · exact adopts r ⟨known, between⟩
    · refine announces fun r' holds => ?_
      obtain rfl := Option.some.inj (known.symm.trans holds)
      exact between

omit [DecidableEq α] in
/-- At rest the ring is closed. -/
theorem Pointers.IsSafe.closed_of_still (safe : s.IsSafe size key) (bound : ∀ y, key y < size)
    (still : s.IsStill size key) : s.IsClosed size key := by
  have back : ∀ p ∈ s.members, s.prev (s.next p) = some p :=
    fun p member => safe.prev_next bound still member
  obtain ⟨cycle, ring⟩ := safe.ring
  have injective : Set.InjOn s.next s.members := by
    intro x hx y hy same
    have known := back x hx
    rw [same, back y hy] at known
    exact (Option.some.inj known).symm
  -- whoever points into the cycle is the element of the cycle in front
  have enters : ∀ x ∈ s.members, s.next x ∈ cycle → x ∈ cycle := by
    intro x inside entered
    have follows := (ring.ordered _ entered).1
    obtain ⟨n, whole⟩ :=
      ring.visits (fun y _ => bound y) safe.distinct follows entered
    have front := ring.iterate_mem entered n
    rw [← iterate_succ_apply, iterate_succ_apply'] at whole
    rwa [← injective (ring.inside front) inside whole]
  have all : s.members ⊆ cycle := by
    intro x inside
    obtain ⟨n, arrived⟩ := ring.reached x inside
    induction n generalizing x with
    | zero => exact arrived
    | succ n ih => exact enters x inside (ih (safe.closed x inside) arrived)
  have whole : cycle = s.members := Finset.Subset.antisymm ring.inside all
  refine ⟨fun p member => ?_, back⟩
  have ordered := ring.ordered p (all member)
  rwa [whole] at ordered

omit [DecidableEq α] in
/-- In a closed ring every element is a successor. -/
theorem Pointers.IsClosed.exists_next (closed : s.IsClosed size key) (member : x ∈ s.members) :
    ∃ p ∈ s.members, s.next p = x := by
  have injective : Set.InjOn s.next s.members := by
    intro p hp q hq same
    have known := closed.prev p hp
    rw [same, closed.prev q hq] at known
    exact (Option.some.inj known).symm
  have onto := Finset.surjOn_of_injOn_of_card_le s.next (fun p live => (closed.next p live).1)
    injective le_rfl
  exact onto member

omit [DecidableEq α] in
/-- A closed ring has room for no change. -/
theorem Pointers.IsClosed.still (closed : s.IsClosed size key) : s.IsStill size key := by
  intro p member
  have known := closed.prev p member
  constructor
  · rintro x ⟨holds, between⟩
    obtain rfl := Option.some.inj (known.symm.trans holds)
    exact between.1 rfl
  · intro announces
    exact (announces p known).1 rfl

end TinyTools.Lib
