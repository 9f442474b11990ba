import TinyTools.Ecc.Linearity

/-!
# The FFT encoder loses nothing

The wrong roots of the lowest levels make the encoder another transform than the discrete Fourier
transform, but none of the products that it keeps in `w` is zero modulo 257. So every level can be
undone: different messages have different codewords, and every vector of residues is a codeword.
-/

open TinyTools.Lib

namespace TinyTools.Ecc

/-- No product kept in `w` is zero. -/
theorem twiddles_lossless : Lossless (twiddles findW) 8 := by
  intro t inside k below
  by_cases low : t < 3
  · obtain ⟨w0, w1, w2, w3⟩ := twiddles_overflow (t + 1) (by omega)
    have few : k < 4 := by
      have power : 2 ^ t ≤ 2 ^ 2 := Nat.pow_le_pow_right (by decide) (by omega)
      omega
    match k with
    | 0 => rw [w0]; decide
    | 1 => rw [w1]; decide
    | 2 => rw [w2]; decide
    | 3 => rw [w3]; decide
    | k + 4 => omega
  · rw [twiddles_exact (t + 1) (by omega) (by omega)]
    apply pow_ne_zero
    rw [rootOf]
    apply pow_ne_zero
    decide

/-- The encoder answers the transform of the message continued with zeros. -/
theorem fftEncoder_eq {m : List ℕ} (fits : m.length ≤ 256) (small : InField m) :
    fftEncoder m = some ((List.range 256).map fun k =>
      (transform (twiddles findW) 8 (residueAt m) k).val) := by
  obtain ⟨a, ranPad, length, known⟩ := padEntry_run fits small
  obtain ⟨y, ranFFT, full, values⟩ := recursiveFFTWithin_transform findW 8 256 (by decide) a
    (residueAt m) length known
  have encoded : fftEncoder m = some y := by
    simp only [fftEncoder, ranPad, recursiveFFT, length, ranFFT, Option.bind_eq_bind,
      Option.bind_some]
  have filled : y = (List.range (2 ^ 8)).map fun k =>
      (transform (twiddles findW) 8 (residueAt m) k).val := values.eq_map full
  rw [encoded, filled]
  rfl

/-- Different messages, up to zeros at their ends, have different codewords; and every vector of 256
residues is the codeword of one. -/
theorem fftEncoder_bijective :
    (∀ m m' : List ℕ, m.length ≤ 256 → m'.length ≤ 256 → InField m → InField m' →
      (fftEncoder m = fftEncoder m' ↔ ∀ j, m.getD j 0 = m'.getD j 0)) ∧
    ∀ y : List ℕ, y.length = 256 → InField y →
      ∃ m : List ℕ, m.length = 256 ∧ InField m ∧ fftEncoder m = some y := by
  constructor
  · intro m m' fits fits' small small'
    rw [fftEncoder_eq fits small, fftEncoder_eq fits' small', Option.some.injEq]
    constructor
    · intro same j
      have entries : ∀ k < 2 ^ 8, transform (twiddles findW) 8 (residueAt m) k =
          transform (twiddles findW) 8 (residueAt m') k := by
        intro k inside
        have entry := List.map_inj_left.mp same k (List.mem_range.mpr inside)
        exact ZMod.val_injective 257 entry
      by_cases inside : j < 256
      · have equal := twiddles_lossless.transform_injective two_ne_zero_residue entries j inside
        rw [← val_residueAt small, ← val_residueAt small', equal]
      · rw [List.getD_eq_default _ _ (by omega), List.getD_eq_default _ _ (by omega)]
    · intro same
      have equal : residueAt m = residueAt m' := by
        funext j
        rw [residueAt, residueAt, same j]
      rw [equal]
  · intro y length small
    obtain ⟨a, values⟩ := twiddles_lossless.exists_transform two_ne_zero_residue (residueAt y)
    let m := (List.range 256).map fun j => (a j).val
    have size : m.length = 256 := by rw [List.length_map, List.length_range]
    have inField : InField m := by
      intro x among
      obtain ⟨j, -, rfl⟩ := List.mem_map.mp among
      exact ZMod.val_lt (a j)
    have residues (j : ℕ) (inside : j < 2 ^ 8) : residueAt m j = a j := by
      have entry : m.getD j 0 = (a j).val := by
        rw [List.getD_eq_getElem _ _ (size.symm ▸ inside), List.getElem_map, List.getElem_range]
      rw [residueAt, entry, ZMod.natCast_zmod_val]
    refine ⟨m, size, inField, ?_⟩
    rw [fftEncoder_eq size.le inField, Option.some.injEq]
    apply List.ext_getElem
    · rw [List.length_map, List.length_range, length]
    · intro k left right
      have inside : k < 256 := length ▸ right
      rw [List.getElem_map, List.getElem_range, transform_congr residues, values k inside,
        val_residueAt small, List.getD_eq_getElem _ _ right]

/-- Zeros at the end of a message do not change its codeword. -/
theorem fftEncoder_bijective_zeros : fftEncoder [5, 256] = fftEncoder [5, 256, 0] :=
  (fftEncoder_bijective.1 [5, 256] [5, 256, 0] (by decide) (by decide) (by decide) (by decide)).mpr
    fun j => by
      match j with
      | 0 | 1 | 2 => rfl
      | j + 3 => rfl

end TinyTools.Ecc
