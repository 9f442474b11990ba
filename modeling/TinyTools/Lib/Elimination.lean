import Mathlib.Algebra.BigOperators.Group.Finset.Basic
import Mathlib.Algebra.BigOperators.Intervals
import Mathlib.Algebra.BigOperators.Ring.Finset
import Mathlib.Algebra.Field.Defs
import Mathlib.LinearAlgebra.Matrix.NonsingularInverse
import Mathlib.LinearAlgebra.Vandermonde
import Mathlib.Logic.Equiv.Basic
import Mathlib.Tactic.LinearCombination

/-!
# Gaussian elimination over a field

An augmented system of `n` equations is a function of a row and a column whose column `n` holds the
constants. Row exchange and elimination below a pivot keep the solutions, in both directions and
for the homogeneous system at the same time, so a regular system stays regular. From regularity
alone follows that some row at or below the current one has a nonzero entry to pivot on: otherwise
the finished triangle above would extend to a nonzero solution of the homogeneous system.
-/

open Finset

namespace TinyTools.Lib

variable {F : Type*} [Field F]

/-- The values satisfy every equation, with the constants scaled by a factor. Factor one is the
system itself, factor zero its homogeneous form. -/
def Vanishes (n : ℕ) (A : ℕ → ℕ → F) (factor : F) (x : ℕ → F) : Prop :=
  ∀ i < n, ∑ j ∈ range n, A i j * x j = factor * A i n

/-- The values solve the augmented system. -/
abbrev Solves (n : ℕ) (A : ℕ → ℕ → F) (x : ℕ → F) : Prop := Vanishes n A 1 x

/-- Only zero solves the homogeneous system: the square block is invertible. -/
def Regular (n : ℕ) (A : ℕ → ℕ → F) : Prop :=
  ∀ x, Vanishes n A 0 x → ∀ j < n, x j = 0

/-- The first columns are already cleared below a nonzero diagonal. -/
structure Triangular (n columns : ℕ) (A : ℕ → ℕ → F) : Prop where
  /-- Entries below the diagonal of a finished column are zero. -/
  below : ∀ j < columns, ∀ k, j < k → k < n → A k j = 0
  /-- The pivot of a finished column is nonzero. -/
  pivot : ∀ j < columns, A j j ≠ 0

/-- Two solutions of a regular system agree. -/
theorem Regular.unique {n : ℕ} {A : ℕ → ℕ → F} (regular : Regular n A) {x y : ℕ → F}
    (left : Solves n A x) (right : Solves n A y) : ∀ j < n, x j = y j := by
  intro j inside
  have difference : Vanishes n A 0 (fun j => x j - y j) := by
    intro i row
    simp only [mul_sub, sum_sub_distrib, left i row, right i row, sub_self, zero_mul]
  exact sub_eq_zero.mp (regular _ difference j inside)

/-- Exchange two rows. -/
def exchange (i r : ℕ) (A : ℕ → ℕ → F) : ℕ → ℕ → F := fun k => A (Equiv.swap i r k)

/-- Subtract from every row below the pivot the multiple of the pivot row that clears the pivot
column. -/
def eliminate (i : ℕ) (A : ℕ → ℕ → F) : ℕ → ℕ → F :=
  fun k j => if i < k then A k j - A k i * (A i i)⁻¹ * A i j else A k j

omit [Field F] in
/-- The exchanged index stays inside the system. -/
theorem swap_lt {n i r k : ℕ} (hi : i < n) (hr : r < n) (hk : k < n) : Equiv.swap i r k < n := by
  rw [Equiv.swap_apply_def]
  split_ifs <;> assumption

/-- Exchanging rows keeps the solutions. -/
theorem exchange_vanishes {n i r : ℕ} (hi : i < n) (hr : r < n) (A : ℕ → ℕ → F) (factor : F)
    (x : ℕ → F) : Vanishes n (exchange i r A) factor x ↔ Vanishes n A factor x := by
  constructor
  · intro holds k hk
    have row := holds (Equiv.swap i r k) (swap_lt hi hr hk)
    simpa only [exchange, Equiv.swap_apply_self] using row
  · intro holds k hk
    exact holds _ (swap_lt hi hr hk)

/-- Elimination below a row keeps the solutions. -/
theorem eliminate_vanishes {n i : ℕ} (hi : i < n) (A : ℕ → ℕ → F) (factor : F) (x : ℕ → F) :
    Vanishes n (eliminate i A) factor x ↔ Vanishes n A factor x := by
  have split (k : ℕ) (below : i < k) : ∑ j ∈ range n, eliminate i A k j * x j =
      ∑ j ∈ range n, A k j * x j -
        A k i * (A i i)⁻¹ * ∑ j ∈ range n, A i j * x j := by
    simp only [eliminate, if_pos below, sub_mul, sum_sub_distrib, mul_sum, mul_assoc]
  have kept (k : ℕ) (above : ¬ i < k) : eliminate i A k = A k := by
    funext j
    simp only [eliminate, if_neg above]
  constructor
  · intro holds k hk
    by_cases below : i < k
    · have pivotRow := holds i hi
      rw [kept i (lt_irrefl i)] at pivotRow
      have row := holds k hk
      rw [split k below, pivotRow] at row
      simp only [eliminate, if_pos below] at row
      linear_combination row
    · simpa only [kept k below] using holds k hk
  · intro holds k hk
    by_cases below : i < k
    · rw [split k below, holds i hi, holds k hk]
      simp only [eliminate, if_pos below]
      ring
    · simpa only [kept k below] using holds k hk

/-- A regular system stays regular under any change that keeps its solutions. -/
theorem Regular.transfer {n : ℕ} {A B : ℕ → ℕ → F} (regular : Regular n A)
    (same : ∀ factor x, Vanishes n B factor x ↔ Vanishes n A factor x) : Regular n B :=
  fun x zero => regular x ((same 0 x).mp zero)

/-- A triangle with nonzero pivots reaches every right-hand side. -/
theorem triangle_solvable {n columns : ℕ} {A : ℕ → ℕ → F} (triangular : Triangular n columns A)
    (inside : columns ≤ n) (b : ℕ → F) :
    ∃ x : ℕ → F, ∀ k < columns, ∑ j ∈ range columns, A k j * x j = b k := by
  induction columns generalizing b with
  | zero => exact ⟨0, fun k hk => absurd hk (Nat.not_lt_zero k)⟩
  | succ columns ih =>
    have smaller : Triangular n columns A :=
      ⟨fun j hj => triangular.below j (by omega), fun j hj => triangular.pivot j (by omega)⟩
    let last := b columns * (A columns columns)⁻¹
    obtain ⟨x, solved⟩ := ih smaller (by omega) (fun k => b k - A k columns * last)
    refine ⟨fun j => if j < columns then x j else last, ?_⟩
    intro k hk
    have head : ∑ j ∈ range columns, A k j * (if j < columns then x j else last) =
        ∑ j ∈ range columns, A k j * x j :=
      sum_congr rfl fun j hj => by rw [if_pos (mem_range.mp hj)]
    rw [sum_range_succ, head]
    simp only [lt_irrefl, ↓reduceIte]
    rcases Nat.lt_succ_iff_lt_or_eq.mp hk with above | rfl
    · rw [solved k above]
      ring
    · have cleared : ∑ j ∈ range k, A k j * x j = 0 := by
        apply sum_eq_zero
        intro j hj
        rw [triangular.below j (by have := mem_range.mp hj; omega) k (mem_range.mp hj) (by omega),
          zero_mul]
      rw [cleared, zero_add, mul_comm, mul_assoc,
        inv_mul_cancel₀ (triangular.pivot k (Nat.lt_succ_self k)), mul_one]

/-- A regular system always offers a nonzero pivot at or below the current row. -/
theorem Regular.pivot_exists {n i : ℕ} {A : ℕ → ℕ → F} (regular : Regular n A)
    (triangular : Triangular n i A) (hi : i < n) : ∃ r, i ≤ r ∧ r < n ∧ A r i ≠ 0 := by
  by_contra none
  push Not at none
  obtain ⟨x, solved⟩ := triangle_solvable triangular (Nat.le_of_lt hi) (fun k => -A k i)
  let y : ℕ → F := fun j => if j < i then x j else if j = i then 1 else 0
  have row (k : ℕ) : ∑ j ∈ range n, A k j * y j = ∑ j ∈ range i, A k j * x j + A k i := by
    rw [← sum_range_add_sum_Ico _ (Nat.le_of_lt hi), sum_eq_sum_Ico_succ_bot hi]
    have head : ∑ j ∈ range i, A k j * y j = ∑ j ∈ range i, A k j * x j :=
      sum_congr rfl fun j hj => by simp only [y, if_pos (mem_range.mp hj)]
    have tail : ∑ j ∈ Ico (i + 1) n, A k j * y j = 0 := by
      apply sum_eq_zero
      intro j hj
      have above := (mem_Ico.mp hj).1
      simp only [y, if_neg (show ¬ j < i by omega), if_neg (show ¬ j = i by omega), mul_zero]
    rw [head, tail]
    simp [y]
  have zero : Vanishes n A 0 y := by
    intro k hk
    rw [row k, zero_mul]
    by_cases above : k < i
    · rw [solved k above]
      ring
    · have cleared : ∑ j ∈ range i, A k j * x j = 0 := by
        apply sum_eq_zero
        intro j hj
        have left := mem_range.mp hj
        rw [triangular.below j left k (by omega) hk, zero_mul]
      rw [cleared, none k (by omega) hk, add_zero]
  have unit : y i = 1 := by simp [y]
  exact one_ne_zero (unit.symm.trans (regular y zero i hi))

/-- One step on a nonzero pivot finishes one more column. -/
theorem Triangular.step {n i r : ℕ} {A : ℕ → ℕ → F} (triangular : Triangular n i A)
    (hi : i < n) (low : i ≤ r) (hr : r < n) (nonzero : A r i ≠ 0) :
    Triangular n (i + 1) (eliminate i (exchange i r A)) := by
  have pivotRow : exchange i r A i = A r := by simp [exchange]
  -- Rows above the current one take no part in the exchange.
  have above (k : ℕ) (hk : k < i) : exchange i r A k = A k := by
    simp only [exchange, Equiv.swap_apply_of_ne_of_ne (show k ≠ i by omega) (show k ≠ r by omega)]
  have cleared (j k : ℕ) (hj : j < i) (hjk : i ≤ k) (hk : k < n) : exchange i r A k j = 0 := by
    refine triangular.below j hj _ ?_ (swap_lt hi hr hk)
    rw [Equiv.swap_apply_def]
    split_ifs <;> omega
  constructor
  · intro j hj k hjk hk
    rcases Nat.lt_succ_iff_lt_or_eq.mp hj with old | rfl
    · by_cases low : i < k
      · simp only [eliminate, if_pos low, cleared j k old (by omega) hk,
          cleared j i old (by omega) hi, mul_zero, sub_zero]
      · simp only [eliminate, if_neg low]
        rcases Nat.lt_or_ge k i with upper | equal
        · rw [above k upper]
          exact triangular.below j old k hjk hk
        · exact cleared j k old equal hk
    · simp only [eliminate, if_pos hjk, pivotRow]
      rw [inv_mul_cancel_right₀ nonzero, sub_self]
  · intro j hj
    simp only [eliminate, if_neg (show ¬ i < j by omega)]
    rcases Nat.lt_succ_iff_lt_or_eq.mp hj with old | rfl
    · rw [above j old]
      exact triangular.pivot j old
    · rwa [pivotRow]

/-- Back substitution has solved the equations from one row on, reading only the triangle. -/
def SolvedFrom (n : ℕ) (A : ℕ → ℕ → F) (x : ℕ → F) (i : ℕ) : Prop :=
  ∀ k, i ≤ k → k < n → ∑ j ∈ Ico k n, A k j * x j = A k n

/-- Dividing the remaining constant by the pivot solves one more equation. -/
theorem SolvedFrom.step {n i : ℕ} {A : ℕ → ℕ → F} {x : ℕ → F}
    (solved : SolvedFrom n A x (i + 1)) (pivot : A i i ≠ 0)
    (value : x i = (A i n - ∑ j ∈ Ico (i + 1) n, A i j * x j) * (A i i)⁻¹) :
    SolvedFrom n A x i := by
  intro k low hk
  rcases Nat.eq_or_lt_of_le low with rfl | above
  · rw [sum_eq_sum_Ico_succ_bot hk, value, mul_comm (A i i), mul_assoc, inv_mul_cancel₀ pivot,
      mul_one, sub_add_cancel]
  · exact solved k above hk

/-- A finished triangle solved from its first row on is a solution of the system. -/
theorem SolvedFrom.solves {n : ℕ} {A : ℕ → ℕ → F} {x : ℕ → F} (solved : SolvedFrom n A x 0)
    (triangular : Triangular n n A) : Solves n A x := by
  intro k hk
  have cleared : ∑ j ∈ range k, A k j * x j = 0 := by
    apply sum_eq_zero
    intro j hj
    have left := mem_range.mp hj
    rw [triangular.below j (by omega) k left hk, zero_mul]
  rw [← sum_range_add_sum_Ico _ (Nat.le_of_lt hk), cleared, zero_add, one_mul,
    solved k (Nat.zero_le k) hk]

/-- The entries of an augmented matrix, continued with zeros. -/
def entries {n : ℕ} (B : Matrix (Fin n) (Fin (n + 1)) F) : ℕ → ℕ → F :=
  fun i j => if inside : i < n ∧ j < n + 1 then B ⟨i, inside.1⟩ ⟨j, inside.2⟩ else 0

/-- Inside the matrix the entries are its own. -/
theorem entries_inside {n i j : ℕ} (B : Matrix (Fin n) (Fin (n + 1)) F) (row : i < n)
    (column : j < n + 1) : entries B i j = B ⟨i, row⟩ ⟨j, column⟩ :=
  dif_pos ⟨row, column⟩

/-- The equations of an augmented matrix, read as a product of its left block and a vector. -/
theorem entries_vanishes {n : ℕ} (B : Matrix (Fin n) (Fin (n + 1)) F) (factor : F) (x : ℕ → F) :
    Vanishes n (entries B) factor x ↔
      (B.submatrix id Fin.castSucc).mulVec (fun j => x j) =
        fun i => factor * B i (Fin.last n) := by
  have row (i : Fin n) : ∑ j ∈ range n, entries B i j * x j =
      (B.submatrix id Fin.castSucc).mulVec (fun j => x j) i := by
    rw [sum_range]
    apply sum_congr rfl
    intro j _
    rw [entries_inside B i.isLt (by omega)]
    rfl
  have constant (i : Fin n) : entries B i n = B i (Fin.last n) :=
    entries_inside B i.isLt (Nat.lt_succ_self n)
  constructor
  · intro holds
    funext i
    rw [← row, holds i i.isLt, constant]
  · intro same i inside
    have equation := congrFun same ⟨i, inside⟩
    rwa [← row, ← constant] at equation

/-- A system with an invertible left block is regular. -/
theorem entries_regular {n : ℕ} {B : Matrix (Fin n) (Fin (n + 1)) F}
    (invertible : IsUnit (B.submatrix id Fin.castSucc)) : Regular n (entries B) := by
  intro x zero j inside
  rw [entries_vanishes] at zero
  have image : (B.submatrix id Fin.castSucc).mulVec (fun j => x j) =
      (B.submatrix id Fin.castSucc).mulVec 0 := by
    rw [zero, Matrix.mulVec_zero]
    funext i
    exact zero_mul _
  have trivial := Matrix.mulVec_injective_of_isUnit invertible image
  exact congrFun trivial ⟨j, inside⟩

/-- Equations that take successive powers of distinct nodes are regular. -/
theorem vandermonde_regular {n : ℕ} {A : ℕ → ℕ → F} (node : ℕ → F)
    (distinct : ∀ i < n, ∀ j < n, node i = node j → i = j)
    (powers : ∀ i < n, ∀ j < n, A i j = node i ^ j) : Regular n A := by
  intro x zero j hj
  have injective : Function.Injective (fun i : Fin n => node i) :=
    fun i j same => Fin.ext (distinct i i.isLt j j.isLt same)
  have rows : ∀ i : Fin n, ∑ j : Fin n, node i ^ (j : ℕ) * x j = 0 := by
    intro i
    have row := zero i i.isLt
    rw [zero_mul, sum_range] at row
    rw [← row]
    exact sum_congr rfl fun j _ => by rw [powers i i.isLt j j.isLt]
  have trivial := Matrix.eq_zero_of_forall_index_sum_pow_mul_eq_zero (v := fun j : Fin n => x j)
    injective rows
  exact congrFun trivial ⟨j, hj⟩

end TinyTools.Lib
