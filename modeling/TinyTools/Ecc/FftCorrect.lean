import TinyTools.Ecc.Fft

/-!
# When the FFT encoder is the discrete Fourier transform

From 16 points up `findW` answers the right root. For 8 points and below the power of three no
longer fits in an `int`, the conversion answers `INT_MIN`, and the twiddle factors of the two lowest
levels that use them are wrong. Following the two recursions down leaves a condition on the entries
that meet those factors: the encoder computes the transform of a message exactly when, in each of
the 32 classes of positions modulo 32, those entries agree.
-/

open Finset TinyTools.Lib

namespace TinyTools.Ecc

instance prime257 : Fact (Nat.Prime 257) := ⟨by norm_num⟩

/-- The root of unity the encoder means to use at each level. -/
def rootOf (level : ℕ) : Residue := 3 ^ 2 ^ (8 - level)

/-- Two is invertible modulo 257. -/
theorem two_ne_zero_residue : (2 : Residue) ≠ 0 := by decide

/-- Half of the order of three is 128. -/
theorem three_pow_half : (3 : Residue) ^ 128 = -1 := by decide +kernel

/-- The intended roots form a tower over all eight levels. -/
theorem rootOf_tower : RootTower rootOf 8 := by
  constructor
  · intro t inside
    rw [rootOf, rootOf, ← pow_mul, ← pow_succ, show 8 - (t + 1) + 1 = 8 - t by omega]
  · intro t inside
    rw [rootOf, ← pow_mul, ← pow_add, show 8 - (t + 1) + t = 7 by omega]
    exact three_pow_half

/-- A root that fits in an `int` is applied exactly. -/
theorem weight_pow (w k : ℕ) (small : w < 257) :
    ((weight w k : ℕ) : Residue) = (w : Residue) ^ k := by
  have unsigned : toUnsigned (w : ℤ) = w := by
    unfold toUnsigned
    omega
  have residue : w = (w : Residue).val := by rw [ZMod.val_natCast, Nat.mod_eq_of_lt small]
  induction k with
  | zero => simp [weight]
  | succ k ih =>
    have product : mult257 (weight w k) w = ((weight w k : Residue) * (w : Residue)).val := by
      rw [← mult257_val, val_weight, ← residue]
    rw [weight, unsigned, product, ZMod.natCast_zmod_val, ih, pow_succ]

/-- From 16 points up the twiddle factors are the powers of the intended root. -/
theorem twiddles_exact (level : ℕ) (low : 4 ≤ level) (high : level ≤ 8) (k : ℕ) :
    twiddles findW level k = rootOf level ^ k := by
  have value : ∀ level, 4 ≤ level → level ≤ 8 →
      ∃ w : ℕ, w < 257 ∧ findW (2 ^ level) = w ∧ (w : Residue) = rootOf level := by
    intro level low high
    interval_cases level
    · exact ⟨249, by decide, by decide +kernel, by decide +kernel⟩
    · exact ⟨136, by decide, by decide +kernel, by decide +kernel⟩
    · exact ⟨81, by decide, by decide +kernel, by decide +kernel⟩
    · exact ⟨9, by decide, by decide +kernel, by decide +kernel⟩
    · exact ⟨3, by decide, by decide +kernel, by decide +kernel⟩
  obtain ⟨w, small, found, root⟩ := value level low high
  rw [twiddles, found, weight_pow w k small, root]

/-- At 8, 4 and 2 points `findW` converts a power that does not fit and answers `-129`. -/
theorem findW_overflow : findW 8 = -129 ∧ findW 4 = -129 ∧ findW 2 = -129 := by decide +kernel

/-- The wrong root runs through these factors. -/
theorem weight_overflow :
    weight (-129) 0 = 1 ∧ weight (-129) 1 = 129 ∧ weight (-129) 2 = 65 ∧ weight (-129) 3 = 97 := by
  decide +kernel

/-- The intended roots of the lowest levels. -/
theorem rootOf_low : rootOf 1 = -1 ∧ rootOf 2 = 241 ∧ rootOf 3 = 64 := by decide +kernel

/-! ## The levels that go wrong -/

/-- The twiddle factors of a level whose root overflowed. -/
theorem twiddles_overflow (level : ℕ) (low : level = 1 ∨ level = 2 ∨ level = 3) :
    twiddles findW level 0 = 1 ∧ twiddles findW level 1 = 129 ∧
      twiddles findW level 2 = 65 ∧ twiddles findW level 3 = 97 := by
  have root : findW (2 ^ level) = -129 := by
    rcases low with rfl | rfl | rfl
    · exact findW_overflow.2.2
    · exact findW_overflow.2.1
    · exact findW_overflow.1
  obtain ⟨w0, w1, w2, w3⟩ := weight_overflow
  simp only [twiddles, root, w0, w1, w2, w3]
  decide

/-- One point needs no factor. -/
theorem agrees_zero (a : ℕ → Residue) : Agrees (twiddles findW) rootOf 0 a := by
  intro k below
  obtain rfl : k = 0 := by omega
  simp [transform, dft]

/-- Two points only use the factor one. -/
theorem agrees_one (a : ℕ → Residue) : Agrees (twiddles findW) rootOf 1 a := by
  refine (agrees_succ two_ne_zero_residue rootOf_tower (by decide) a).mpr
    ⟨agrees_zero _, fun k below => ?_⟩
  obtain rfl : k = 0 := by omega
  rw [agrees_zero (odds a) 0 below, (twiddles_overflow 1 (Or.inl rfl)).1,
    show rootOf (0 + 1) ^ 0 = 1 from pow_zero _]

/-- Four points agree exactly when the two entries that meet the wrong factor are equal. -/
theorem agrees_two_iff (a : ℕ → Residue) :
    Agrees (twiddles findW) rootOf 2 a ↔ a 1 = a 3 := by
  obtain ⟨w0, w1, -, -⟩ := twiddles_overflow 2 (Or.inr (Or.inl rfl))
  have difference : dft (rootOf 1) (2 ^ 1) (odds a) 1 = a 1 - a 3 := by
    simp [dft, odds, sum_range_succ, rootOf_low.1, sub_eq_add_neg]
  rw [agrees_succ two_ne_zero_residue rootOf_tower (by decide)]
  constructor
  · rintro ⟨-, scaled⟩
    have equation := scaled 1 (by decide)
    rw [agrees_one _ 1 (by decide), w1, rootOf_low.2.1, difference] at equation
    have multiple : (112 : Residue) * (a 1 - a 3) = 0 := by linear_combination -equation
    exact sub_eq_zero.mp ((mul_eq_zero.mp multiple).resolve_left (by decide))
  · intro equal
    refine ⟨agrees_one _, fun k below => ?_⟩
    rw [agrees_one _ k below]
    obtain rfl | rfl : k = 0 ∨ k = 1 := by omega
    · rw [w0, pow_zero]
    · rw [difference, equal, sub_self, mul_zero, mul_zero]

/-- What eight points need: the entries that meet a wrong factor agree. -/
def Balanced (a : ℕ → Residue) : Prop := a 2 = a 6 ∧ a 1 = a 3 ∧ a 3 = a 5 ∧ a 5 = a 7

/-- The transform of four points, written out. -/
theorem dft_four (root : Residue) (b : ℕ → Residue) (k : ℕ) :
    dft root (2 ^ 2) b k = b 0 + b 1 * root ^ k + b 2 * root ^ (2 * k) + b 3 * root ^ (3 * k) := by
  simp [dft, sum_range_succ]

/-- The four rows that the factors of the code compute. -/
theorem transform_four (b : ℕ → Residue) :
    transform (twiddles findW) 2 b 0 = b 0 + b 2 + (b 1 + b 3) ∧
      transform (twiddles findW) 2 b 1 = b 0 - b 2 + 129 * (b 1 - b 3) ∧
        transform (twiddles findW) 2 b 2 = b 0 + b 2 - (b 1 + b 3) ∧
          transform (twiddles findW) 2 b 3 = b 0 - b 2 - 129 * (b 1 - b 3) := by
  obtain ⟨u0, -, -, -⟩ := twiddles_overflow 1 (Or.inl rfl)
  obtain ⟨v0, v1, -, -⟩ := twiddles_overflow 2 (Or.inr (Or.inl rfl))
  constructor
  · simp [transform, evens, odds, u0, v0]
  constructor
  · simp [transform, evens, odds, u0, v1]
  constructor
  · simp [transform, evens, odds, u0, v0]
  · simp [transform, evens, odds, u0, v1]

/-- The four rows of the transform. -/
theorem dft_rows (b : ℕ → Residue) :
    dft (rootOf 2) (2 ^ 2) b 0 = b 0 + b 2 + (b 1 + b 3) ∧
      dft (rootOf 2) (2 ^ 2) b 1 = b 0 - b 2 + 241 * (b 1 - b 3) ∧
        dft (rootOf 2) (2 ^ 2) b 2 = b 0 + b 2 - (b 1 + b 3) ∧
          dft (rootOf 2) (2 ^ 2) b 3 = b 0 - b 2 - 241 * (b 1 - b 3) := by
  have powers : (241 : Residue) ^ 2 = -1 ∧ (241 : Residue) ^ 3 = -241 ∧ (241 : Residue) ^ 4 = 1 ∧
      (241 : Residue) ^ 6 = -1 ∧ (241 : Residue) ^ 9 = 241 := by decide +kernel
  obtain ⟨p2, p3, p4, p6, p9⟩ := powers
  have root : rootOf 2 = 241 := rootOf_low.2.1
  constructor
  · rw [dft_four]
    ring
  constructor
  · rw [dft_four, root, pow_one, Nat.mul_one, Nat.mul_one, p2, p3]
    ring
  constructor
  · rw [dft_four, root, p2, p4, p6]
    ring
  · rw [dft_four, root, p3, p6, p9]
    ring

/-- The factors of eight points on the odd half: four equations in the four odd entries. -/
theorem scaled_odds_iff (b : ℕ → Residue) :
    (∀ k < 2 ^ 2, twiddles findW 3 k * transform (twiddles findW) 2 b k =
      rootOf 3 ^ k * dft (rootOf 2) (2 ^ 2) b k) ↔ b 0 = b 1 ∧ b 1 = b 2 ∧ b 2 = b 3 := by
  obtain ⟨w0, w1, w2, w3⟩ := twiddles_overflow 3 (Or.inr (Or.inr rfl))
  obtain ⟨t0, t1, t2, t3⟩ := transform_four b
  obtain ⟨d0, d1, d2, d3⟩ := dft_rows b
  have root : rootOf 3 = 64 := rootOf_low.2.2
  have powers : (64 : Residue) ^ 2 = 241 ∧ (64 : Residue) ^ 3 = 4 := by decide +kernel
  constructor
  · intro scaled
    have e1 := scaled 1 (by decide)
    have e2 := scaled 2 (by decide)
    have e3 := scaled 3 (by decide)
    rw [w1, t1, root, d1, pow_one] at e1
    rw [w2, t2, root, d2, powers.1] at e2
    rw [w3, t3, root, d3, powers.2] at e3
    -- Eliminating one difference from the first and third equation isolates the other.
    have first : (863866 : Residue) * (b 0 - b 2) = 0 := by
      linear_combination 11549 * e1 + 1217 * e3
    have even : b 0 - b 2 = 0 := (mul_eq_zero.mp first).resolve_left (by decide)
    have second : (1217 : Residue) * (b 1 - b 3) = 0 := by
      linear_combination e1 - 65 * even
    have odd : b 1 - b 3 = 0 := (mul_eq_zero.mp second).resolve_left (by decide)
    have third : (352 : Residue) * (b 0 - b 1) = 0 := by
      linear_combination -e2 + 176 * even - 176 * odd
    have cross : b 0 - b 1 = 0 := (mul_eq_zero.mp third).resolve_left (by decide)
    exact ⟨sub_eq_zero.mp cross, by linear_combination even - cross,
      by linear_combination cross + odd - even⟩
  · rintro ⟨h0, h1, h2⟩ k below
    obtain rfl | rfl | rfl | rfl : k = 0 ∨ k = 1 ∨ k = 2 ∨ k = 3 := by omega
    · rw [w0, t0, d0, pow_zero]
    · rw [t1, d1, h0, h1, h2]
      ring
    · rw [t2, d2, h0, h1, h2]
      ring
    · rw [t3, d3, h0, h1, h2]
      ring

/-- Eight points agree exactly when they are balanced. -/
theorem agrees_three_iff (a : ℕ → Residue) :
    Agrees (twiddles findW) rootOf 3 a ↔ Balanced a := by
  rw [agrees_succ two_ne_zero_residue rootOf_tower (by decide), agrees_two_iff, scaled_odds_iff]
  rfl

/-- The residue class of a position modulo the number of classes. -/
def strided (a : ℕ → Residue) (classes r : ℕ) : ℕ → Residue := fun j => a (r + classes * j)

/-- More points agree exactly when each class of eight points is balanced: the levels above add
no condition of their own. -/
theorem agrees_iff (s : ℕ) (small : s ≤ 5) (a : ℕ → Residue) :
    Agrees (twiddles findW) rootOf (s + 3) a ↔ ∀ r < 2 ^ s, Balanced (strided a (2 ^ s) r) := by
  induction s generalizing a with
  | zero =>
    rw [agrees_three_iff]
    constructor
    · intro balanced r below
      obtain rfl : r = 0 := by omega
      simpa [strided, Balanced] using balanced
    · intro balanced
      simpa [strided, Balanced] using balanced 0 (by decide)
  | succ s ih =>
    rw [show s + 1 + 3 = s + 3 + 1 by omega, agrees_succ_exact two_ne_zero_residue rootOf_tower
      (by omega) (fun k _ => twiddles_exact _ (by omega) (by omega) k), ih (by omega),
      ih (by omega)]
    have size : 2 ^ (s + 1) = 2 * 2 ^ s := pow_succ' 2 s
    have even (r : ℕ) : strided (evens a) (2 ^ s) r = strided a (2 ^ (s + 1)) (2 * r) := by
      funext j
      simp only [strided, evens, size]
      congr 1
      ring
    have odd (r : ℕ) : strided (odds a) (2 ^ s) r = strided a (2 ^ (s + 1)) (2 * r + 1) := by
      funext j
      simp only [strided, odds, size]
      congr 1
      ring
    simp only [even, odd]
    constructor
    · rintro ⟨left, right⟩ r below
      obtain ⟨q, rfl | rfl⟩ := Nat.even_or_odd' r
      · exact left q (by omega)
      · exact right q (by omega)
    · intro both
      exact ⟨fun r below => both (2 * r) (by omega), fun r below => both (2 * r + 1) (by omega)⟩

/-! ## The encoder -/

/-- The encoder answers the discrete Fourier transform of the message modulo 257. -/
def ComputesDFT (m : List ℕ) : Prop :=
  ∃ y, fftEncoder m = some y ∧ y.length = 256 ∧
    ∀ i < 256, y[i]? = some ((∑ j ∈ range m.length, m.getD j 0 * 3 ^ (i * j)) % 257)

/-- In every class of positions modulo 32 the entries that meet an overflowed root agree; positions
past the end of the message hold zero. -/
def OverflowFree (m : List ℕ) : Prop :=
  ∀ r < 32, m.getD (r + 64) 0 = m.getD (r + 192) 0 ∧ m.getD (r + 32) 0 = m.getD (r + 96) 0 ∧
    m.getD (r + 96) 0 = m.getD (r + 160) 0 ∧ m.getD (r + 160) 0 = m.getD (r + 224) 0

instance (m : List ℕ) : Decidable (OverflowFree m) :=
  inferInstanceAs (Decidable (∀ r < 32, _))

/-- The message as residues, continued with zeros. -/
def residueAt (m : List ℕ) (j : ℕ) : Residue := (m.getD j 0 : ℕ)

/-- A message below 257 is read back from its residues. -/
theorem val_residueAt {m : List ℕ} (small : ∀ x ∈ m, x < 257) (j : ℕ) :
    (residueAt m j).val = m.getD j 0 := by
  have bound : m.getD j 0 < 257 := by
    rcases Nat.lt_or_ge j m.length with inside | outside
    · rw [List.getD_eq_getElem _ _ inside]
      exact small _ (List.getElem_mem inside)
    · rw [List.getD_eq_default _ _ outside]
      decide
  rw [residueAt, ZMod.val_natCast, Nat.mod_eq_of_lt bound]

/-- The message is copied in front of zeros. -/
theorem padEntry_run {m : List ℕ} (fits : m.length ≤ 256) (small : ∀ x ∈ m, x < 257) :
    ∃ a, forUp 0 m.length (padEntry m) (List.replicate 256 0) = some a ∧ a.length = 256 ∧
      Residues 256 a (residueAt m) := by
  have loop := forUp_rule (padEntry m)
    (fun i a => a.length = 256 ∧ Filled i a (fun j => m.getD j 0) ∧
      ∀ j, i ≤ j → j < 256 → a[j]? = some 0)
    (Nat.zero_le m.length) (List.replicate 256 0)
    ⟨List.length_replicate, Filled.zero _ _, fun j _ below => by
      rw [List.getElem?_replicate, if_pos below]⟩ ?step
  case step =>
    rintro i a - inside ⟨length, copied, rest⟩
    have present : m[i]? = some (m.getD i 0) := by
      rw [List.getD_eq_getElem _ _ inside, List.getElem?_eq_getElem inside]
    obtain ⟨next, stored, same, grown⟩ := copied.store_next (by omega)
    refine ⟨next, ?_, same.trans length, grown, fun j above below => ?_⟩
    · simp only [padEntry, present, stored, Option.bind_eq_bind, Option.bind_some]
    · rw [store_inside (by omega), Option.some.injEq] at stored
      rw [← stored, List.getElem?_set_ne (by omega), rest j (by omega) below]
  obtain ⟨a, ran, length, copied, rest⟩ := loop
  refine ⟨a, ran, length, fun j below => ?_⟩
  beta_reduce
  rw [val_residueAt small]
  rcases Nat.lt_or_ge j m.length with inside | outside
  · exact copied j inside
  · rw [rest j outside below, List.getD_eq_default _ _ outside]

/-- The sum of the statement is the transform of the residues. -/
theorem sum_eq_dft {m : List ℕ} (fits : m.length ≤ 256) (i : ℕ) :
    (∑ j ∈ range m.length, m.getD j 0 * 3 ^ (i * j)) % 257 =
      (dft (rootOf 8) (2 ^ 8) (residueAt m) i).val := by
  have fits : m.length ≤ 2 ^ 8 := fits
  have tail : ∑ j ∈ Ico m.length (2 ^ 8), residueAt m j * rootOf 8 ^ (j * i) = 0 := by
    apply sum_eq_zero
    intro j hj
    rw [residueAt, List.getD_eq_default _ _ (mem_Ico.mp hj).1, Nat.cast_zero, zero_mul]
  rw [← ZMod.val_natCast, dft, ← sum_range_add_sum_Ico _ fits, tail, add_zero]
  congr 1
  push_cast
  apply sum_congr rfl
  intro j _
  rw [residueAt, rootOf, Nat.sub_self, pow_zero, pow_one, Nat.mul_comm]

/-- The encoder computes the transform exactly when the butterfly transform agrees with it. -/
theorem computesDFT_iff_agrees {m : List ℕ} (fits : m.length ≤ 256) (small : ∀ x ∈ m, x < 257) :
    ComputesDFT m ↔ Agrees (twiddles findW) rootOf 8 (residueAt m) := by
  obtain ⟨a, ranPad, length, known⟩ := padEntry_run fits small
  obtain ⟨y, ranFFT, full, values⟩ := recursiveFFTWithin_transform findW 8 256 (by decide) a
    (residueAt m) length known
  have encoded : fftEncoder m = some y := by
    simp only [fftEncoder, ranPad, recursiveFFT, length, ranFFT, Option.bind_eq_bind,
      Option.bind_some]
  constructor
  · rintro ⟨z, ran, -, entries⟩ k below
    obtain rfl : y = z := Option.some.inj (encoded.symm.trans ran)
    have entry := (values k below).symm.trans (entries k below)
    rw [sum_eq_dft fits] at entry
    exact ZMod.val_injective 257 (Option.some.inj entry)
  · intro agrees
    refine ⟨y, encoded, full, fun k below => ?_⟩
    rw [sum_eq_dft fits, ← agrees k below]
    exact values k below

/-- The butterfly transform agrees exactly when the message is free of overflow. -/
theorem agrees_iff_overflowFree {m : List ℕ} (small : ∀ x ∈ m, x < 257) :
    Agrees (twiddles findW) rootOf 8 (residueAt m) ↔ OverflowFree m := by
  have equal (i j : ℕ) : residueAt m i = residueAt m j ↔ m.getD i 0 = m.getD j 0 := by
    rw [← (ZMod.val_injective 257).eq_iff, val_residueAt small, val_residueAt small]
  rw [agrees_iff 5 (by decide)]
  simp only [Balanced, strided, equal, OverflowFree, Nat.reducePow, Nat.reduceMul]

/-- The encoder computes the discrete Fourier transform of a message exactly when no entry that
differs from its partners meets an overflowed root. -/
theorem fftEncoder_dft_iff (m : List ℕ) (fits : m.length ≤ 256) (small : ∀ x ∈ m, x < 257) :
    ComputesDFT m ↔ OverflowFree m :=
  (computesDFT_iff_agrees fits small).trans (agrees_iff_overflowFree small)

/-- A short message is transformed correctly. -/
theorem fftEncoder_dft_short : ComputesDFT [5, 256, 3] ↔ OverflowFree [5, 256, 3] :=
  fftEncoder_dft_iff [5, 256, 3] (by decide) (by decide)

/-- With 33 symbols the last one meets the overflowed root of 8 points. -/
theorem fftEncoder_not_dft :
    (List.replicate 32 0 ++ [1]).length ≤ 256 ∧ (∀ x ∈ List.replicate 32 0 ++ [1], x < 257) ∧
      ¬ ComputesDFT (List.replicate 32 0 ++ [1]) := by
  have fits : (List.replicate 32 0 ++ [1]).length ≤ 256 := by decide
  have small : ∀ x ∈ List.replicate 32 0 ++ [1], x < 257 := by decide
  refine ⟨fits, small, fun computes => ?_⟩
  have free := (agrees_iff_overflowFree small).mp ((computesDFT_iff_agrees fits small).mp computes)
  exact absurd free (by decide)

end TinyTools.Ecc
