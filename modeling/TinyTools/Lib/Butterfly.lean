import Mathlib.Algebra.BigOperators.Intervals
import Mathlib.Algebra.BigOperators.Ring.Finset
import Mathlib.Tactic.FieldSimp
import Mathlib.Tactic.LinearCombination
import Mathlib.Tactic.Ring

/-!
# Butterfly transforms and the discrete Fourier transform

A butterfly transform splits its input into even and odd positions, transforms both halves and
combines them with twiddle factors that may be arbitrary. The discrete Fourier transform obeys the
same recursion with the powers of a root as twiddle factors. Comparing the two recursions level by
level decides exactly on which inputs a transform with wrong twiddle factors is still right: one
level adds the conditions of its own factors to those of the two halves and nothing else.
-/

open Finset

namespace TinyTools.Lib

variable {R : Type*} [CommRing R]

/-- The discrete Fourier transform of the first `n` entries at the powers of `root`. -/
def dft (root : R) (n : ℕ) (a : ℕ → R) (k : ℕ) : R := ∑ j ∈ range n, a j * root ^ (j * k)

/-- The entries at even positions. -/
def evens {α : Type*} (a : ℕ → α) : ℕ → α := fun j => a (2 * j)

/-- The entries at odd positions. -/
def odds {α : Type*} (a : ℕ → α) : ℕ → α := fun j => a (2 * j + 1)

/-- The butterfly transform of `2 ^ level` entries; level `t` combines with `twiddle t`. -/
def transform (twiddle : ℕ → ℕ → R) : ℕ → (ℕ → R) → ℕ → R
  | 0, a, _ => a 0
  | level + 1, a, k =>
    let even := transform twiddle level (evens a)
    let odd := transform twiddle level (odds a)
    let half := 2 ^ level
    if k < half then even k + twiddle (level + 1) k * odd k
    else even (k - half) - twiddle (level + 1) (k - half) * odd (k - half)

/-- The transform of a sum is the sum of the transforms. -/
theorem transform_add (twiddle : ℕ → ℕ → R) (level : ℕ) (a b : ℕ → R) (k : ℕ) :
    transform twiddle level (a + b) k =
      transform twiddle level a k + transform twiddle level b k := by
  induction level generalizing a b k with
  | zero => rfl
  | succ level ih =>
    have even (k : ℕ) : transform twiddle level (evens (a + b)) k =
        transform twiddle level (evens a) k + transform twiddle level (evens b) k := ih _ _ k
    have odd (k : ℕ) : transform twiddle level (odds (a + b)) k =
        transform twiddle level (odds a) k + transform twiddle level (odds b) k := ih _ _ k
    simp only [transform, even, odd]
    split_ifs
    · ring
    · ring

/-- The transform of a multiple is the multiple of the transform. -/
theorem transform_scaled (twiddle : ℕ → ℕ → R) (level : ℕ) (c : R) (a : ℕ → R) (k : ℕ) :
    transform twiddle level (fun j => c * a j) k = c * transform twiddle level a k := by
  induction level generalizing a k with
  | zero => rfl
  | succ level ih =>
    have even (k : ℕ) : transform twiddle level (evens fun j => c * a j) k =
        c * transform twiddle level (evens a) k := ih _ k
    have odd (k : ℕ) : transform twiddle level (odds fun j => c * a j) k =
        c * transform twiddle level (odds a) k := ih _ k
    simp only [transform, even, odd]
    split_ifs
    · ring
    · ring

/-- A sum over an even range is the sum over its even and odd members. -/
theorem sum_range_double (n : ℕ) (f : ℕ → R) :
    ∑ j ∈ range (2 * n), f j = ∑ j ∈ range n, f (2 * j) + ∑ j ∈ range n, f (2 * j + 1) := by
  induction n with
  | zero => simp
  | succ n ih =>
    rw [show 2 * (n + 1) = 2 * n + 1 + 1 by ring, sum_range_succ, sum_range_succ, ih,
      sum_range_succ, sum_range_succ]
    ring

/-- The lower half of the transform combines the halves with the power of the root. -/
theorem dft_lower (root : R) (n : ℕ) (a : ℕ → R) (k : ℕ) :
    dft root (2 * n) a k =
      dft (root ^ 2) n (evens a) k + root ^ k * dft (root ^ 2) n (odds a) k := by
  simp only [dft, evens, odds, sum_range_double, mul_sum]
  congr 1
  · exact sum_congr rfl fun j _ => by rw [← pow_mul]; ring_nf
  · exact sum_congr rfl fun j _ => by rw [← pow_mul]; ring

/-- The upper half subtracts, because half a turn of the root is minus one. -/
theorem dft_upper {root : R} {n : ℕ} (half : root ^ n = -1) (a : ℕ → R) (k : ℕ) :
    dft root (2 * n) a (n + k) =
      dft (root ^ 2) n (evens a) k - root ^ k * dft (root ^ 2) n (odds a) k := by
  have turn (j : ℕ) : (root ^ 2) ^ (j * (n + k)) = (root ^ 2) ^ (j * k) := by
    rw [← pow_mul, ← pow_mul, show 2 * (j * (n + k)) = n * (2 * j) + 2 * (j * k) by ring, pow_add,
      pow_mul, half, pow_mul (-1 : R), neg_one_sq, one_pow, one_mul]
  have flip : root ^ (n + k) = -root ^ k := by rw [pow_add, half, neg_one_mul]
  rw [dft_lower, flip, neg_mul, ← sub_eq_add_neg]
  simp only [dft, turn]

/-- Roots of every level: squaring goes one level down, and half a turn is minus one. -/
structure RootTower (root : ℕ → R) (levels : ℕ) : Prop where
  /-- Squaring the root of a level gives the root of the level below. -/
  square : ∀ t < levels, root (t + 1) ^ 2 = root t
  /-- Half a turn is minus one. -/
  half : ∀ t < levels, root (t + 1) ^ 2 ^ t = -1

/-- The transform agrees with the discrete Fourier transform on this input. -/
def Agrees (twiddle : ℕ → ℕ → R) (root : ℕ → R) (level : ℕ) (a : ℕ → R) : Prop :=
  ∀ k < 2 ^ level, transform twiddle level a k = dft (root level) (2 ^ level) a k

/-- Sum and difference determine both terms when two is not a zero divisor. -/
theorem sum_difference_iff [NoZeroDivisors R] (two : (2 : R) ≠ 0) {e o e' o' : R} :
    e + o = e' + o' ∧ e - o = e' - o' ↔ e = e' ∧ o = o' := by
  constructor
  · rintro ⟨sum, difference⟩
    have twice : 2 * (e - e') = 0 := by linear_combination sum + difference
    have same : e = e' := sub_eq_zero.mp ((mul_eq_zero.mp twice).resolve_left two)
    exact ⟨same, by linear_combination sum - same⟩
  · rintro ⟨rfl, rfl⟩
    exact ⟨rfl, rfl⟩

variable {twiddle : ℕ → ℕ → R} {root : ℕ → R} {levels : ℕ}

/-- One level: the transform agrees when the even half agrees and the scaled odd halves agree. -/
theorem agrees_succ [NoZeroDivisors R] (two : (2 : R) ≠ 0) (tower : RootTower root levels) {t : ℕ}
    (inside : t < levels) (a : ℕ → R) :
    Agrees twiddle root (t + 1) a ↔ Agrees twiddle root t (evens a) ∧
      ∀ k < 2 ^ t, twiddle (t + 1) k * transform twiddle t (odds a) k =
        root (t + 1) ^ k * dft (root t) (2 ^ t) (odds a) k := by
  have size : 2 ^ (t + 1) = 2 * 2 ^ t := pow_succ' 2 t
  have lower (k : ℕ) : dft (root (t + 1)) (2 ^ (t + 1)) a k =
      dft (root t) (2 ^ t) (evens a) k + root (t + 1) ^ k * dft (root t) (2 ^ t) (odds a) k := by
    rw [size, dft_lower, tower.square t inside]
  have upper (k : ℕ) : dft (root (t + 1)) (2 ^ (t + 1)) a (2 ^ t + k) =
      dft (root t) (2 ^ t) (evens a) k - root (t + 1) ^ k * dft (root t) (2 ^ t) (odds a) k := by
    rw [size, dft_upper (tower.half t inside), tower.square t inside]
  have lowerT (k : ℕ) (hk : k < 2 ^ t) : transform twiddle (t + 1) a k =
      transform twiddle t (evens a) k + twiddle (t + 1) k * transform twiddle t (odds a) k := by
    simp only [transform, if_pos hk]
  have upperT (k : ℕ) : transform twiddle (t + 1) a (2 ^ t + k) =
      transform twiddle t (evens a) k - twiddle (t + 1) k * transform twiddle t (odds a) k := by
    simp only [transform, if_neg (show ¬ 2 ^ t + k < 2 ^ t by omega), Nat.add_sub_cancel_left]
  constructor
  · intro agrees
    have both (k : ℕ) (hk : k < 2 ^ t) := by
      have low := agrees k (by omega)
      have high := agrees (2 ^ t + k) (by omega)
      rw [lowerT k hk, lower] at low
      rw [upperT, upper] at high
      exact (sum_difference_iff two).mp ⟨low, high⟩
    exact ⟨fun k hk => (both k hk).1, fun k hk => (both k hk).2⟩
  · rintro ⟨even, odd⟩ k hk
    by_cases below : k < 2 ^ t
    · rw [lowerT k below, lower, even k below, odd k below]
    · obtain ⟨j, rfl⟩ := Nat.exists_eq_add_of_le (Nat.le_of_not_lt below)
      rw [upperT, upper, even j (by omega), odd j (by omega)]

/-- One level with the right factors: the transform agrees exactly when both halves do. -/
theorem agrees_succ_exact [NoZeroDivisors R] [Nontrivial R] (two : (2 : R) ≠ 0)
    (tower : RootTower root levels) {t : ℕ} (inside : t < levels)
    (exact : ∀ k < 2 ^ t, twiddle (t + 1) k = root (t + 1) ^ k) (a : ℕ → R) :
    Agrees twiddle root (t + 1) a ↔
      Agrees twiddle root t (evens a) ∧ Agrees twiddle root t (odds a) := by
  have nonzero : root (t + 1) ≠ 0 := by
    intro zero
    have half := tower.half t inside
    rw [zero, zero_pow (Nat.two_pow_pos t).ne'] at half
    exact one_ne_zero (neg_eq_zero.mp half.symm)
  rw [agrees_succ two tower inside]
  refine and_congr_right fun _ => forall₂_congr fun k hk => ?_
  rw [exact k hk]
  exact mul_right_inj' (pow_ne_zero k nonzero)

/-! ## Transforms that lose nothing -/

/-- No twiddle factor of the levels up to one is zero. -/
def Lossless (twiddle : ℕ → ℕ → R) (level : ℕ) : Prop :=
  ∀ t < level, ∀ k < 2 ^ t, twiddle (t + 1) k ≠ 0

/-- The transform reads the first entries only. -/
theorem transform_congr {twiddle : ℕ → ℕ → R} {level : ℕ} {a b : ℕ → R}
    (same : ∀ j < 2 ^ level, a j = b j) (k : ℕ) :
    transform twiddle level a k = transform twiddle level b k := by
  induction level generalizing a b k with
  | zero => exact same 0 Nat.one_pos
  | succ level ih =>
    have size : 2 ^ (level + 1) = 2 * 2 ^ level := pow_succ' 2 level
    have even (k : ℕ) : transform twiddle level (evens a) k = transform twiddle level (evens b) k :=
      ih (fun j below => same (2 * j) (by omega)) k
    have odd (k : ℕ) : transform twiddle level (odds a) k = transform twiddle level (odds b) k :=
      ih (fun j below => same (2 * j + 1) (by omega)) k
    simp only [transform, even, odd]

/-- Such a transform tells inputs apart. -/
theorem Lossless.transform_injective [NoZeroDivisors R] (two : (2 : R) ≠ 0) {level : ℕ}
    (lossless : Lossless twiddle level) {a b : ℕ → R}
    (same : ∀ k < 2 ^ level, transform twiddle level a k = transform twiddle level b k) :
    ∀ j < 2 ^ level, a j = b j := by
  induction level generalizing a b with
  | zero =>
    intro j below
    rw [pow_zero, Nat.lt_one_iff] at below
    rw [below]
    exact same 0 Nat.one_pos
  | succ level ih =>
    have size : 2 ^ (level + 1) = 2 * 2 ^ level := pow_succ' 2 level
    have halves (k : ℕ) (below : k < 2 ^ level) :
        transform twiddle level (evens a) k = transform twiddle level (evens b) k ∧
          transform twiddle level (odds a) k = transform twiddle level (odds b) k := by
      have low := same k (by omega)
      have high := same (k + 2 ^ level) (by omega)
      have above : ¬ k + 2 ^ level < 2 ^ level := by omega
      simp only [transform, if_pos below] at low
      simp only [transform, if_neg above, Nat.add_sub_cancel] at high
      obtain ⟨even, odd⟩ := (sum_difference_iff two).mp ⟨low, high⟩
      have factor := lossless level (Nat.lt_succ_self level) k below
      exact ⟨even, mul_left_cancel₀ factor odd⟩
    have below : Lossless twiddle level := fun t inside => lossless t (Nat.lt_succ_of_lt inside)
    have even := ih below fun k inside => (halves k inside).1
    have odd := ih below fun k inside => (halves k inside).2
    intro j inside
    obtain ⟨i, rfl | rfl⟩ := Nat.even_or_odd' j
    · exact even i (by omega)
    · exact odd i (by omega)

/-- Every output is one of such a transform. -/
theorem Lossless.exists_transform {K : Type*} [Field K] (two : (2 : K) ≠ 0)
    {twiddle : ℕ → ℕ → K} {level : ℕ} (lossless : Lossless twiddle level) (y : ℕ → K) :
    ∃ a : ℕ → K, ∀ k < 2 ^ level, transform twiddle level a k = y k := by
  induction level generalizing y with
  | zero =>
    refine ⟨y, fun k below => ?_⟩
    rw [pow_zero, Nat.lt_one_iff] at below
    rw [below]
    rfl
  | succ level ih =>
    have below : Lossless twiddle level := fun t inside => lossless t (Nat.lt_succ_of_lt inside)
    let half := 2 ^ level
    obtain ⟨even, evenIs⟩ := ih below fun k => (y k + y (k + half)) / 2
    obtain ⟨odd, oddIs⟩ := ih below fun k => (y k - y (k + half)) / (2 * twiddle (level + 1) k)
    let a (j : ℕ) : K := if j % 2 = 0 then even (j / 2) else odd (j / 2)
    have evens_ : evens a = even := by
      funext j
      have whole : 2 * j / 2 = j := by omega
      change (if 2 * j % 2 = 0 then even (2 * j / 2) else odd (2 * j / 2)) = even j
      rw [if_pos (Nat.mul_mod_right 2 j), whole]
    have odds_ : odds a = odd := by
      funext j
      have rest : ¬ (2 * j + 1) % 2 = 0 := by omega
      have whole : (2 * j + 1) / 2 = j := by omega
      change (if (2 * j + 1) % 2 = 0 then _ else odd ((2 * j + 1) / 2)) = odd j
      rw [if_neg rest, whole]
    have scaled (k : ℕ) (inside : k < half) : twiddle (level + 1) k *
        ((y k - y (k + half)) / (2 * twiddle (level + 1) k)) = (y k - y (k + half)) / 2 := by
      have factor := lossless level (Nat.lt_succ_self level) k inside
      field_simp
    refine ⟨a, fun k inside => ?_⟩
    simp only [transform, evens_, odds_]
    by_cases low : k < half
    · rw [if_pos low, evenIs k low, oddIs k low, scaled k low]
      field_simp
      ring
    · have high : k - half < half := by
        have size : 2 ^ (level + 1) = 2 * half := pow_succ' 2 level
        omega
      have back : k - half + half = k := by omega
      rw [if_neg low, evenIs _ high, oddIs _ high, scaled _ high, back]
      field_simp
      ring

end TinyTools.Lib
