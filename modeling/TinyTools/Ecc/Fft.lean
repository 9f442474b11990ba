import Mathlib
import TinyTools.Lib.Butterfly
import TinyTools.Lib.Loop

/-!
# The FFT encoder modulo 257

`recursive_FFT` computes with `unsigned int` and `int`, and asks `findW` for the root of each level.
Whatever integers `findW` answers, on residues the recursion is a butterfly transform whose twiddle
factors are the running products kept in `w`. `pow` is exact here; converting its result to `int`
follows the x86 instruction, which answers `INT_MIN` for every value that does not fit.
-/

open TinyTools.Lib

namespace TinyTools.Ecc

/-- Conversion to a 32-bit `int`. -/
def toInt (x : ℤ) : ℤ := x.bmod (2 ^ 32)

/-- Conversion to a 32-bit `unsigned int`. -/
def toUnsigned (x : ℤ) : ℕ := (x % 2 ^ 32).toNat

/-- Conversion of an exact `double` to `int`: `INT_MIN` when the value does not fit. -/
def doubleToInt (x : ℕ) : ℤ := if x < 2 ^ 31 then x else -2 ^ 31

/-- `add257`. -/
def add257 (a b : ℕ) : ℕ := (a + b) % 2 ^ 32 % 257

/-- `sub257`. -/
def sub257 (a b : ℕ) : ℕ :=
  let c := toInt (a - b)
  if c ≥ 0 then toUnsigned c else toUnsigned (257 + c)

/-- `mult257`. -/
def mult257 (a b : ℕ) : ℕ := a * b % 2 ^ 32 % 257

/-- `findW`. -/
def findW (n : ℕ) : ℤ :=
  let p := 256 / n
  (doubleToInt (3 ^ p)).tmod 257

/-- `if(i % 2 == 0) a0[i/2] = a[i]; else a1[i/2] = a[i];`. -/
def splitEntry (a : List ℕ) (i : ℕ) (halves : List ℕ × List ℕ) : Option (List ℕ × List ℕ) := do
  let entry ← a[i]?
  if i % 2 = 0 then do
    let a0 ← store halves.1 (i / 2) entry
    some (a0, halves.2)
  else do
    let a1 ← store halves.2 (i / 2) entry
    some (halves.1, a1)

/-- One pass of the combining loop over the state `y`, `w`. -/
def combineEntry (wn : ℤ) (n : ℕ) (y0 y1 : List ℕ) (k : ℕ) (state : List ℕ × ℤ) :
    Option (List ℕ × ℤ) := do
  let (y, w) := state
  let even ← y0[k]?
  let odd ← y1[k]?
  let y ← store y k (add257 even (mult257 (toUnsigned w) odd))
  let y ← store y (k + n / 2) (sub257 even (mult257 (toUnsigned w) odd))
  let w := toInt (mult257 (toUnsigned w) (toUnsigned wn))
  some (y, w)

/-- `recursive_FFT` to a bounded depth, over the integers `findW` answers. The empty vector divides
by zero in `findW`; an odd length above one overruns a half. -/
def recursiveFFTWithin (findW : ℕ → ℤ) : ℕ → List ℕ → Option (List ℕ)
  | 0, _ => none
  | depth + 1, a =>
    let n := a.length
    if n = 1 then some a
    else if n = 0 then none
    else do
      let halves ← forUp 0 n (splitEntry a) (List.replicate (n / 2) 0, List.replicate (n / 2) 0)
      let y0 ← recursiveFFTWithin findW depth halves.1
      let y1 ← recursiveFFTWithin findW depth halves.2
      let combined ← forUp 0 (n / 2) (combineEntry (findW n) n y0 y1) (List.replicate n 0, 1)
      some combined.1

/-- `recursive_FFT`: each call halves the length, so the length bounds the depth. -/
def recursiveFFT (findW : ℕ → ℤ) (a : List ℕ) : Option (List ℕ) :=
  recursiveFFTWithin findW a.length a

/-- `a[i] = m[i]`. -/
def padEntry (m : List ℕ) (i : ℕ) (a : List ℕ) : Option (List ℕ) := do
  let entry ← m[i]?
  store a i entry

/-- `fft_encoder`: a message of more than 256 symbols overruns the vector. -/
def fftEncoder (m : List ℕ) : Option (List ℕ) := do
  let size := 256
  let a ← forUp 0 m.length (padEntry m) (List.replicate size 0)
  recursiveFFT findW a

/-! ## Arithmetic on residues -/

/-- The integers modulo 257. -/
abbrev Residue := ZMod 257

/-- `add257` on residues. -/
theorem add257_val (x y : Residue) : add257 x.val y.val = (x + y).val := by
  have hx := ZMod.val_lt x
  have hy := ZMod.val_lt y
  rw [add257, ZMod.val_add, Nat.mod_eq_of_lt (by omega : x.val + y.val < 2 ^ 32)]

/-- `mult257` on residues. -/
theorem mult257_val (x y : Residue) : mult257 x.val y.val = (x * y).val := by
  have hx := ZMod.val_lt x
  have hy := ZMod.val_lt y
  have small : x.val * y.val ≤ 256 * 256 := Nat.mul_le_mul (by omega) (by omega)
  rw [mult257, ZMod.val_mul, Nat.mod_eq_of_lt (by omega : x.val * y.val < 2 ^ 32)]

/-- `sub257` on residues. -/
theorem sub257_val (x y : Residue) : sub257 x.val y.val = (x - y).val := by
  have hx := ZMod.val_lt x
  have hy := ZMod.val_lt y
  have small : toInt ((x.val : ℤ) - y.val) = x.val - y.val := by
    rw [toInt, Int.bmod_eq_of_le] <;> omega
  have result : sub257 x.val y.val = if y.val ≤ x.val then x.val - y.val
      else 257 + x.val - y.val := by
    unfold sub257 toUnsigned
    simp only [small]
    split_ifs <;> omega
  have below : sub257 x.val y.val < 257 := by
    rw [result]
    split_ifs <;> omega
  have cast : ((sub257 x.val y.val : ℕ) : Residue) = x - y := by
    rw [result]
    split_ifs with order
    · rw [Nat.cast_sub order, ZMod.natCast_zmod_val, ZMod.natCast_zmod_val]
    · rw [Nat.cast_sub (by omega), Nat.cast_add, ZMod.natCast_zmod_val, ZMod.natCast_zmod_val,
        show ((257 : ℕ) : Residue) = 0 from rfl, zero_add]
  rw [← cast, ZMod.val_natCast, Nat.mod_eq_of_lt below]

/-- The values `w` runs through when the root of the level is `wn`. -/
def weight (wn : ℤ) : ℕ → ℕ
  | 0 => 1
  | k + 1 => mult257 (weight wn k) (toUnsigned wn)

/-- `w` is always a residue. -/
theorem weight_lt (wn : ℤ) (k : ℕ) : weight wn k < 257 := by
  cases k with
  | zero => exact show 1 < 257 by decide
  | succ k => exact Nat.mod_lt _ (by decide)

/-- A residue survives the conversions between `int` and `unsigned int`. -/
theorem toUnsigned_weight (wn : ℤ) (k : ℕ) : toUnsigned (weight wn k : ℤ) = weight wn k := by
  have small := weight_lt wn k
  unfold toUnsigned
  omega

/-- The twiddle factors of every level. -/
def twiddles (findW : ℕ → ℤ) (level k : ℕ) : Residue := (weight (findW (2 ^ level)) k : ℕ)

/-- A weight as a residue. -/
theorem val_weight (wn : ℤ) (k : ℕ) : ((weight wn k : ℕ) : Residue).val = weight wn k := by
  rw [ZMod.val_natCast, Nat.mod_eq_of_lt (weight_lt wn k)]

/-! ## The recursion is a butterfly transform -/

/-- The vector starts with these residues. -/
abbrev Residues (count : ℕ) (v : List ℕ) (value : ℕ → Residue) : Prop :=
  Filled count v fun j => (value j).val

/-- The split loop separates the even from the odd positions. -/
theorem splitEntry_run {half : ℕ} {a : List ℕ} {value : ℕ → Residue} (length : a.length = 2 * half)
    (known : Residues (2 * half) a value) :
    ∃ halves, forUp 0 a.length (splitEntry a) (List.replicate half 0, List.replicate half 0) =
      some halves ∧ halves.1.length = half ∧ halves.2.length = half ∧
      Residues half halves.1 (evens value) ∧ Residues half halves.2 (odds value) := by
  have loop := forUp_rule (splitEntry a)
    (fun i halves => halves.1.length = half ∧ halves.2.length = half ∧
      Residues ((i + 1) / 2) halves.1 (evens value) ∧ Residues (i / 2) halves.2 (odds value))
    (Nat.zero_le a.length) (List.replicate half 0, List.replicate half 0)
    ⟨List.length_replicate, List.length_replicate, Filled.zero _ _, Filled.zero _ _⟩ ?step
  case step =>
    rintro i ⟨a0, a1⟩ - inside ⟨left, right, even, odd⟩
    simp only at left right even odd
    have entry := known i (by omega)
    beta_reduce at entry
    rcases Nat.even_or_odd' i with ⟨j, rfl | rfl⟩
    · rw [show (2 * j + 1) / 2 = j by omega] at even
      rw [show 2 * j / 2 = j by omega] at odd
      obtain ⟨next, stored, same, grown⟩ := even.store_next (by omega)
      refine ⟨(next, a1), ?_, same.trans left, right, ?_, ?_⟩
      · simp only [evens] at stored
        simp only [splitEntry, entry, stored, show 2 * j % 2 = 0 by omega,
          show 2 * j / 2 = j by omega, ↓reduceIte, Option.bind_eq_bind, Option.bind_some]
      · rwa [show (2 * j + 1 + 1) / 2 = j + 1 by omega]
      · rwa [show (2 * j + 1) / 2 = j by omega]
    · rw [show (2 * j + 1 + 1) / 2 = j + 1 by omega] at even
      rw [show (2 * j + 1) / 2 = j by omega] at odd
      obtain ⟨next, stored, same, grown⟩ := odd.store_next (by omega)
      refine ⟨(a0, next), ?_, left, same.trans right, ?_, ?_⟩
      · simp only [odds] at stored
        simp only [splitEntry, entry, stored, show ¬ (2 * j + 1) % 2 = 0 by omega,
          show (2 * j + 1) / 2 = j by omega, ↓reduceIte, Option.bind_eq_bind, Option.bind_some]
      · rwa [show (2 * j + 1 + 1 + 1) / 2 = j + 1 by omega]
      · rwa [show (2 * j + 1 + 1) / 2 = j + 1 by omega]
  obtain ⟨halves, ran, left, right, even, odd⟩ := loop
  refine ⟨halves, ran, left, right, ?_, ?_⟩
  · rwa [show (a.length + 1) / 2 = half by omega] at even
  · rwa [show a.length / 2 = half by omega] at odd

/-- The combining loop writes sums into the lower half and differences into the upper half. -/
theorem combineEntry_run {half : ℕ} {y0 y1 : List ℕ} {even odd : ℕ → Residue} (wn : ℤ)
    (left : Residues half y0 even) (right : Residues half y1 odd) :
    ∃ combined, forUp 0 half (combineEntry wn (2 * half) y0 y1)
        (List.replicate (2 * half) 0, 1) = some combined ∧ combined.1.length = 2 * half ∧
      (∀ k < half, combined.1[k]? = some (even k + (weight wn k : ℕ) * odd k).val) ∧
      ∀ k < half, combined.1[k + half]? = some (even k - (weight wn k : ℕ) * odd k).val := by
  have loop := forUp_rule (combineEntry wn (2 * half) y0 y1)
    (fun i state => state.1.length = 2 * half ∧ state.2 = weight wn i ∧
      (∀ k < i, state.1[k]? = some (even k + (weight wn k : ℕ) * odd k).val) ∧
      ∀ k < i, state.1[k + half]? = some (even k - (weight wn k : ℕ) * odd k).val)
    (Nat.zero_le half) (List.replicate (2 * half) 0, 1)
    ⟨List.length_replicate, rfl, fun k below => absurd below (Nat.not_lt_zero k),
      fun k below => absurd below (Nat.not_lt_zero k)⟩ ?step
  case step =>
    rintro i ⟨y, w⟩ - inside ⟨length, rfl, lower, upper⟩
    simp only at length lower upper
    have evenEntry := left i inside
    have oddEntry := right i inside
    beta_reduce at evenEntry oddEntry
    have product : mult257 (weight wn i) (odd i).val = ((weight wn i : ℕ) * odd i).val := by
      rw [← mult257_val, val_weight]
    have next : toInt (weight wn (i + 1) : ℤ) = weight wn (i + 1) := by
      have small := weight_lt wn (i + 1)
      rw [toInt, Int.bmod_eq_of_le] <;> omega
    refine ⟨((y.set i (even i + (weight wn i : ℕ) * odd i).val).set (i + half)
      (even i - (weight wn i : ℕ) * odd i).val, weight wn (i + 1)), ?_, ?_, rfl, ?_, ?_⟩
    · simp only [combineEntry, evenEntry, oddEntry, toUnsigned_weight, product, add257_val,
        sub257_val, store_inside (show i < y.length by omega), Option.bind_eq_bind,
        Option.bind_some, Nat.mul_div_cancel_left half (show 0 < 2 by decide)]
      rw [store_inside (by rw [List.length_set]; omega)]
      simp only [Option.bind_some, Option.some.injEq, Prod.mk.injEq, true_and]
      exact next
    · rw [List.length_set, List.length_set, length]
    · intro k below
      rw [List.getElem?_set_ne (by omega)]
      rcases Nat.lt_succ_iff_lt_or_eq.mp below with old | rfl
      · rw [List.getElem?_set_ne (by omega), lower k old]
      · rw [List.getElem?_set_self (by omega)]
    · intro k below
      rcases Nat.lt_succ_iff_lt_or_eq.mp below with old | rfl
      · rw [List.getElem?_set_ne (by omega), List.getElem?_set_ne (by omega), upper k old]
      · rw [List.getElem?_set_self (by rw [List.length_set]; omega)]
  obtain ⟨combined, ran, length, -, lower, upper⟩ := loop
  exact ⟨combined, ran, length, lower, upper⟩

/-- On residues the recursion succeeds for every power-of-two length and every choice of roots, and
it is the butterfly transform with those roots' running products. -/
theorem recursiveFFTWithin_transform (findW : ℕ → ℤ) (level depth : ℕ) (enough : level < depth)
    (a : List ℕ) (value : ℕ → Residue) (length : a.length = 2 ^ level)
    (known : Residues (2 ^ level) a value) :
    ∃ y, recursiveFFTWithin findW depth a = some y ∧ y.length = 2 ^ level ∧
      Residues (2 ^ level) y (transform (twiddles findW) level value) := by
  induction level generalizing depth a value with
  | zero =>
    obtain ⟨depth, rfl⟩ := Nat.exists_eq_succ_of_ne_zero (show depth ≠ 0 by omega)
    refine ⟨a, ?_, length, ?_⟩
    · simp only [recursiveFFTWithin, length, pow_zero, ↓reduceIte]
    · intro k below
      obtain rfl : k = 0 := by omega
      exact known 0 below
  | succ level ih =>
    obtain ⟨depth, rfl⟩ := Nat.exists_eq_succ_of_ne_zero (show depth ≠ 0 by omega)
    have size : 2 ^ (level + 1) = 2 * 2 ^ level := pow_succ' 2 level
    have positive : 0 < 2 ^ level := Nat.two_pow_pos level
    rw [size] at length known
    obtain ⟨halves, ranSplit, left, right, even, odd⟩ := splitEntry_run length known
    obtain ⟨y0, ran0, length0, known0⟩ := ih depth (by omega) halves.1 _ left even
    obtain ⟨y1, ran1, length1, known1⟩ := ih depth (by omega) halves.2 _ right odd
    obtain ⟨combined, ranCombine, full, lower, upper⟩ :=
      combineEntry_run (findW (2 * 2 ^ level)) known0 known1
    refine ⟨combined.1, ?_, full.trans size.symm, ?_⟩
    · rw [length] at ranSplit
      simp only [recursiveFFTWithin, length, show ¬ 2 * 2 ^ level = 1 by omega,
        show ¬ 2 * 2 ^ level = 0 by omega, ↓reduceIte,
        Nat.mul_div_cancel_left (2 ^ level) (show 0 < 2 by decide), ranSplit, ran0, ran1,
        ranCombine, Option.bind_eq_bind, Option.bind_some]
    · intro k below
      by_cases low : k < 2 ^ level
      · rw [lower k low]
        simp only [transform, if_pos low, twiddles, size]
      · obtain ⟨j, rfl⟩ := Nat.exists_eq_add_of_le' (Nat.le_of_not_lt low)
        rw [upper j (by omega)]
        simp only [transform, if_neg low, twiddles, size, Nat.add_sub_cancel]

end TinyTools.Ecc
