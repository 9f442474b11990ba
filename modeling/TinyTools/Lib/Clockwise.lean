import Mathlib.Data.Finset.Max
import Mathlib.Logic.Function.Iterate
import Mathlib.Order.Interval.Finset.Nat

/-!
# Walking a ring of keys

Keys below a given size are arranged on a ring. The clockwise distance turns each circular
comparison into a comparison of numbers, so that intervals that wrap past zero need no case of
their own.
-/

namespace TinyTools.Lib

variable {α : Type} {size a b x y : ℕ}

/-- The distance from one key to another, walking clockwise. -/
def clockwise (size a b : ℕ) : ℕ := if a ≤ b then b - a else b + size - a

/-- The distance of the walk that does not stay where it starts. -/
def around (size a b : ℕ) : ℕ := if a = b then size else clockwise size a b

/-- A key lies strictly inside the clockwise interval between two ends; when the ends are the same
key, the interval holds every other key. -/
def Between (size a x b : ℕ) : Prop := x ≠ a ∧ clockwise size a x < around size a b

instance : Decidable (Between size a x b) := inferInstanceAs (Decidable (_ ∧ _))

/-- A key is at no distance from itself. -/
@[simp]
theorem clockwise_self : clockwise size a a = 0 := by simp [clockwise]

/-- The way around to the same key is the whole ring. -/
@[simp]
theorem around_self : around size a a = size := if_pos rfl

/-- The way to another key is the distance. -/
theorem around_of_ne (distinct : a ≠ b) : around size a b = clockwise size a b := if_neg distinct

/-- A walk is shorter than the ring. -/
theorem clockwise_lt (ha : a < size) (hb : b < size) : clockwise size a b < size := by
  unfold clockwise
  split <;> omega

/-- Only the walk that stays has length zero. -/
theorem clockwise_pos (ha : a < size) (distinct : a ≠ b) : 0 < clockwise size a b := by
  unfold clockwise
  split <;> omega

/-- A stop on the way splits the walk. -/
theorem clockwise_split (ha : a < size) (hx : x < size) (hb : b < size)
    (stop : clockwise size a x ≤ clockwise size a b) :
    clockwise size a x + clockwise size x b = clockwise size a b := by
  unfold clockwise at *
  split_ifs at * <;> omega

/-- A walk that does not stay is at most once around. -/
theorem around_le (ha : a < size) (hb : b < size) : around size a b ≤ size := by
  unfold around clockwise
  split_ifs <;> omega

/-- When a walk from `a` meets `x` before `b`, a walk from `b` meets `a` before `x`. -/
theorem around_le_of_before (ha : a < size) (hx : x < size) (hb : b < size) (apart : b ≠ a)
    (before : clockwise size a x < around size a b) : around size b a ≤ around size b x := by
  unfold around clockwise at *
  split_ifs at * <;> omega

/-- A stop before the end of a walk splits it. -/
theorem around_split (ha : a < size) (hx : x < size) (hb : b < size)
    (before : clockwise size a x < around size a b) :
    clockwise size a x + around size x b = around size a b := by
  unfold around clockwise at *
  split_ifs at * <;> omega

/-- Another key up to the end of a walk splits it. -/
theorem clockwise_split_around (ha : a < size) (hx : x < size) (hb : b < size) (apart : x ≠ a)
    (reached : clockwise size a x ≤ around size a b) :
    clockwise size a x + clockwise size x b = around size a b := by
  unfold around clockwise at *
  split_ifs at * <;> omega

/-- When a walk from `a` meets `x` before `b`, and no `y` before `b`, then from `x` it meets no `y`
before `b`. -/
theorem around_le_of_gap (ha : a < size) (hx : x < size) (hb : b < size) (hy : y < size)
    (inside : Between size a x b) (gap : around size a b ≤ around size a y) :
    around size x b ≤ around size x y := by
  have toB := around_split ha hx hb inside.2
  have toY := around_split ha hx hy (inside.2.trans_le gap)
  omega

/-- A walk that starts one place further on is one place shorter. -/
theorem clockwise_succ (ha : a < size) (hx : x < size) :
    clockwise size ((a + 1) % size) x + 1 = around size a x := by
  by_cases last : a + 1 = size
  · rw [last, Nat.mod_self]
    unfold around clockwise
    split_ifs <;> omega
  · rw [Nat.mod_eq_of_lt (by omega)]
    unfold around clockwise
    split_ifs <;> omega

/-- Two walks in the same direction, each short of a common end, make one. -/
theorem clockwise_trans (ha : a < size) (hx : x < size) (hy : y < size) (hb : b < size)
    (first : clockwise size a x < clockwise size a b)
    (second : clockwise size x y < clockwise size x b) :
    clockwise size a y = clockwise size a x + clockwise size x y ∧
      clockwise size a y < clockwise size a b := by
  unfold clockwise at *
  split_ifs at * <;> omega

/-- A step of less than once around passes zero once at most. -/
theorem step_eq {d : ℕ} (ha : a < size) (hd : d < size) :
    (a + d) % size = if a + d < size then a + d else a + d - size := by
  split_ifs with wraps
  · exact Nat.mod_eq_of_lt wraps
  · rw [Nat.mod_eq_sub_mod (Nat.le_of_not_lt wraps), Nat.mod_eq_of_lt (by omega)]

/-- A walk that starts further on is shorter by as much, when the start does not pass its end. -/
theorem clockwise_advance {d : ℕ} (ha : a < size) (hx : x < size) (hd : d ≤ clockwise size a x) :
    clockwise size ((a + d) % size) x + d = clockwise size a x := by
  have short := clockwise_lt ha hx
  rw [step_eq ha (hd.trans_lt short)]
  unfold clockwise at *
  split_ifs at * <;> omega

/-- A walk whose start passes its end goes on almost once around. -/
theorem clockwise_advance_past {d : ℕ} (ha : a < size) (hx : x < size) (hd : d < size)
    (past : clockwise size a x < d) :
    clockwise size ((a + d) % size) x + d = clockwise size a x + size := by
  rw [step_eq ha hd]
  unfold clockwise at *
  split_ifs at * <;> omega

/-! ## The first key at or after a position -/

/-- The element whose key is met first, walking clockwise from a position. -/
def IsFirst (size : ℕ) (key : α → ℕ) (members : Finset α) (position : ℕ) (q : α) : Prop :=
  q ∈ members ∧ ∀ r ∈ members, clockwise size position (key q) ≤ clockwise size position (key r)

/-- The element whose key is met next, leaving a position: once around when no other is left. -/
def IsNext (size : ℕ) (key : α → ℕ) (members : Finset α) (position : ℕ) (q : α) : Prop :=
  q ∈ members ∧ ∀ r ∈ members, around size position (key q) ≤ around size position (key r)

variable {key : α → ℕ} {members : Finset α} {position : ℕ} {q r : α}

/-- A member at the position itself is met first. -/
theorem isFirst_of_key_eq (inside : q ∈ members) (here : key q = position) :
    IsFirst size key members position q :=
  ⟨inside, fun r _ => by rw [here, clockwise_self]; exact Nat.zero_le _⟩

/-- The next member after a key is the first one for every position up to it. -/
theorem IsNext.isFirst (bound : ∀ p ∈ members, key p < size) {start : ℕ} (from_ : start < size)
    (below : position < size) (next : IsNext size key members start q) (apart : position ≠ start)
    (reached : clockwise size start position ≤ around size start (key q)) :
    IsFirst size key members position q := by
  refine ⟨next.1, fun r inside => ?_⟩
  have least := next.2 r inside
  have toNext := clockwise_split_around from_ below (bound q next.1) apart reached
  have toOther := clockwise_split_around from_ below (bound r inside) apart (reached.trans least)
  omega

/-- The first member at or after a later position is at least that far away, unless it is where the
walk to that position starts. -/
theorem IsFirst.le_clockwise (bound : ∀ p ∈ members, key p < size) {d : ℕ} (live : r ∈ members)
    (short : d < size) (first : IsFirst size key members ((key r + d) % size) q)
    (apart : key q ≠ key r) : d ≤ clockwise size (key r) (key q) := by
  have hr := bound r live
  have hq := bound q first.1
  by_contra near
  have nearest := first.2 r live
  have self : clockwise size (key r) (key r) < d := by
    rw [clockwise_self]
    omega
  have toFirst := clockwise_advance_past hr hq short (Nat.lt_of_not_le near)
  have toStart := clockwise_advance_past hr hr short self
  have moved := clockwise_pos hr apart.symm
  rw [clockwise_self] at toStart
  omega

/-- The first member at or after a later position lies between that position and any member behind
it. -/
theorem IsFirst.clockwise_le (bound : ∀ p ∈ members, key p < size) {start d : ℕ}
    (below : start < size) (first : IsFirst size key members ((start + d) % size) q)
    (live : r ∈ members) (behind : d ≤ clockwise size start (key r)) :
    d ≤ clockwise size start (key q) ∧
      clockwise size start (key q) ≤ clockwise size start (key r) := by
  have hr := bound r live
  have hq := bound q first.1
  have short := clockwise_lt below hr
  have nearest := first.2 r live
  have toMember := clockwise_advance below hr behind
  by_cases past : clockwise size start (key q) < d
  · have toFirst := clockwise_advance_past below hq (behind.trans_lt short) past
    omega
  · have reached := Nat.le_of_not_lt past
    have toFirst := clockwise_advance below hq reached
    exact ⟨reached, by omega⟩

/-- When the next member is at the position itself, every member is. -/
theorem IsNext.alone (bound : ∀ p ∈ members, key p < size) (live : r ∈ members)
    (next : IsNext size key members (key r) q) (self : key q = key r) :
    ∀ p ∈ members, key p = key r := by
  intro p inside
  by_contra other
  have least := next.2 p inside
  rw [self, around_self, around_of_ne (Ne.symm other)] at least
  have short := clockwise_lt (bound r live) (bound p inside)
  omega

/-- Where the ring wraps, the next member has the least key. -/
theorem IsNext.least (bound : ∀ p ∈ members, key p < size) (below : position < size)
    (next : IsNext size key members position q) (wraps : key q < position) :
    ∀ p ∈ members, key q ≤ key p := by
  intro p inside
  have hq := bound q next.1
  have hp := bound p inside
  have nearest := next.2 p inside
  unfold around clockwise at nearest
  split_ifs at nearest <;> omega

/-! ## Members that follow one another -/

/-- Members met next from the same position have the same key. -/
theorem IsNext.key_eq (bound : ∀ p ∈ members, key p < size) (below : position < size)
    (next : IsNext size key members position q) (next' : IsNext size key members position r) :
    key q = key r := by
  have hq := bound q next.1
  have hr := bound r next'.1
  have least := next.2 r next'.1
  have least' := next'.2 q next.1
  unfold around clockwise at *
  split_ifs at * <;> omega

/-- The members from which the same one is met next have the same key. -/
theorem IsNext.start_eq {p p' : α} (bound : ∀ p ∈ members, key p < size) (start : p ∈ members)
    (start' : p' ∈ members) (next : IsNext size key members (key p) q)
    (next' : IsNext size key members (key p') q) : key p = key p' := by
  have hp := bound p start
  have hp' := bound p' start'
  have hq := bound q next.1
  have least := next.2 p' start'
  have least' := next'.2 p start
  unfold around clockwise at *
  split_ifs at * <;> omega

/-- Fewer members leave the next one in place, when it is among them. -/
theorem IsNext.mono {fewer : Finset α} (next : IsNext size key members position q)
    (subset : fewer ⊆ members) (kept : q ∈ fewer) : IsNext size key fewer position q :=
  ⟨kept, fun r inside => next.2 r (subset inside)⟩

/-- The next member is strictly before every other one, unless the walk to it goes once around. -/
theorem IsNext.before (bound : ∀ p ∈ members, key p < size) (below : position < size)
    (next : IsNext size key members position q) (moved : position ≠ key q) (live : r ∈ members)
    (apart : key r ≠ key q) : clockwise size position (key q) < around size position (key r) := by
  have hq := bound q next.1
  have hr := bound r live
  have least := next.2 r live
  rw [around_of_ne moved] at least
  apply lt_of_le_of_ne least
  intro same
  unfold around clockwise at same
  split_ifs at same <;> omega

/-- When the next member leaves, the one met next from it takes its place. -/
theorem IsNext.trans_erase [DecidableEq α] (bound : ∀ p ∈ members, key p < size)
    (distinct : Set.InjOn key members) (below : position < size)
    (next : IsNext size key members position q) (next' : IsNext size key members (key q) r)
    (more : r ≠ q) : IsNext size key (members.erase q) position r := by
  have hq := bound q next.1
  have apart : ∀ x ∈ members, x ≠ q → key x ≠ key q := fun x live other same =>
    other (distinct live next.1 same)
  have moved : position ≠ key q := by
    intro here
    rw [here] at next
    exact apart r next'.1 more (next.alone bound next.1 rfl r next'.1)
  refine ⟨Finset.mem_erase.mpr ⟨more, next'.1⟩, fun x inside => ?_⟩
  have ⟨other, live⟩ := Finset.mem_erase.mp inside
  have least := next'.2 x live
  have past := next.before bound below moved next'.1 (apart r next'.1 more)
  have past' := next.before bound below moved live (apart x live other)
  have whole := around_split below hq (bound r next'.1) past
  have whole' := around_split below hq (bound x live) past'
  omega

end TinyTools.Lib
