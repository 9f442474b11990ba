import Mathlib.LinearAlgebra.Lagrange

/-!
# Values of polynomials with few coefficients

Over a field, `k` coefficients are decided by the values of the polynomial at any `k` points; and
fewer points can always be chosen as the only ones where some polynomial is zero. So two vectors of
values differ in more points than there are points behind the first `k`, and no more is certain.
-/

open Finset Polynomial

namespace TinyTools.Lib

variable {F ι : Type} [Field F]

/-- The value of the polynomial with the first of some coefficients. -/
def valueAt (k : ℕ) (coefficient : ℕ → F) (x : F) : F := ∑ j ∈ range k, x ^ j * coefficient j

/-- Coefficients behind the degree do not count. -/
theorem valueAt_coeff {k : ℕ} {p : F[X]} (small : p.degree < k) (x : F) :
    valueAt k p.coeff x = p.eval x := by
  unfold valueAt
  by_cases zero : p = 0
  · rw [zero, eval_zero]
    exact sum_eq_zero fun j _ => by rw [coeff_zero, mul_zero]
  · rw [eval_eq_sum_range' ((natDegree_lt_iff_degree_lt zero).mpr small)]
    exact sum_congr rfl fun j _ => mul_comm _ _

/-- Any coefficients are those of a polynomial. -/
theorem exists_coeff (k : ℕ) (coefficient : ℕ → F) :
    ∃ p : F[X], p.degree < k ∧ ∀ j < k, p.coeff j = coefficient j := by
  refine ⟨∑ j ∈ range k, C (coefficient j) * X ^ j, ?_, fun j inside => ?_⟩
  · rw [← mem_degreeLT]
    apply Submodule.sum_mem
    intro j inside
    rw [mem_degreeLT]
    exact (degree_C_mul_X_pow_le j _).trans_lt (by exact_mod_cast mem_range.mp inside)
  · rw [finsetSum_coeff, sum_eq_single j]
    · rw [coeff_C_mul_X_pow, if_pos rfl]
    · intro other _ different
      rw [coeff_C_mul_X_pow, if_neg different.symm]
    · intro outside
      exact absurd (mem_range.mpr inside) outside

/-- The values depend on the first coefficients only. -/
theorem valueAt_congr {k : ℕ} {a b : ℕ → F} (same : ∀ j < k, a j = b j) (x : F) :
    valueAt k a x = valueAt k b x :=
  sum_congr rfl fun j inside => by rw [same j (mem_range.mp inside)]

/-- The values of two polynomials are added. -/
theorem valueAt_add (k : ℕ) (a b : ℕ → F) (x : F) :
    valueAt k (fun j => a j + b j) x = valueAt k a x + valueAt k b x := by
  unfold valueAt
  rw [← sum_add_distrib]
  exact sum_congr rfl fun j _ => mul_add _ _ _

/-- The values at `k` points decide the coefficients. -/
theorem coefficients_eq {k : ℕ} {a b : ℕ → F} {point : ι → F} {at_ : Finset ι}
    (distinct : Set.InjOn point at_) (enough : k ≤ at_.card)
    (same : ∀ i ∈ at_, valueAt k a (point i) = valueAt k b (point i)) : ∀ j < k, a j = b j := by
  obtain ⟨p, smallP, ofP⟩ := exists_coeff k a
  obtain ⟨q, smallQ, ofQ⟩ := exists_coeff k b
  have bound : (k : WithBot ℕ) ≤ at_.card := by exact_mod_cast enough
  have equal : p = q := by
    apply eq_of_degrees_lt_of_eval_index_eq at_ distinct
    · exact smallP.trans_le bound
    · exact smallQ.trans_le bound
    · intro i inside
      rw [← valueAt_coeff smallP, ← valueAt_coeff smallQ, valueAt_congr ofP, valueAt_congr ofQ]
      exact same i inside
  intro j inside
  rw [← ofP j inside, ← ofQ j inside, equal]

/-- Fewer points than coefficients are the only ones, among others, where some polynomial is
zero. -/
theorem exists_vanishing {k : ℕ} {point : ι → F} {at_ among : Finset ι} (within : at_ ⊆ among)
    (distinct : Set.InjOn point among) (few : at_.card < k) :
    ∃ a : ℕ → F, ∀ i ∈ among, valueAt k a (point i) = 0 ↔ i ∈ at_ := by
  let p := ∏ i ∈ at_, (X - C (point i))
  have degree : p.degree < k := by
    rw [degree_prod]
    simp only [degree_X_sub_C, sum_const, nsmul_eq_mul, mul_one]
    exact_mod_cast few
  refine ⟨p.coeff, fun i inside => ?_⟩
  rw [valueAt_coeff degree, eval_prod, prod_eq_zero_iff]
  simp only [eval_sub, eval_X, eval_C, sub_eq_zero]
  constructor
  · rintro ⟨other, chosen, same⟩
    rw [distinct inside (within chosen) same]
    exact chosen
  · intro chosen
    exact ⟨i, chosen, rfl⟩

end TinyTools.Lib
