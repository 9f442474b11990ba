import TinyTools.Ecc.FftCorrect

/-!
# The FFT is linear

A transform with wrong roots is still a butterfly transform, and these are linear. So whatever
integers `findW` answers, the recursion maps sums to sums and multiples to multiples, and all that
it answers are residues.
-/

open TinyTools.Lib

namespace TinyTools.Ecc

/-- `add257` of the entries of two vectors. -/
def addEntries (a b : List ℕ) : List ℕ := List.zipWith add257 a b

/-- `mult257` of a scalar and the entries of a vector. -/
def scaleEntries (c : ℕ) (a : List ℕ) : List ℕ := a.map (mult257 c)

/-- Every entry is a residue. -/
def InField (a : List ℕ) : Prop := ∀ x ∈ a, x < 257

instance (a : List ℕ) : Decidable (InField a) := inferInstanceAs (Decidable (∀ _ ∈ a, _))

/-- The recursion answers the values of the transform. -/
theorem recursiveFFT_eq (findW : ℕ → ℤ) {level : ℕ} {a : List ℕ} (length : a.length = 2 ^ level)
    (small : InField a) : recursiveFFT findW a = some ((List.range (2 ^ level)).map fun k =>
      (transform (twiddles findW) level (residueAt a) k).val) := by
  have known : Residues (2 ^ level) a (residueAt a) := by
    intro j below
    beta_reduce
    rw [val_residueAt small, List.getD_eq_getElem _ _ (by omega)]
    exact List.getElem?_eq_getElem (by omega)
  have enough : level < a.length := by
    rw [length]
    exact Nat.lt_two_pow_self
  obtain ⟨y, ran, full, values⟩ := recursiveFFTWithin_transform findW level a.length enough a
    (residueAt a) length known
  rw [recursiveFFT, ran, values.eq_map full]

/-- The residues of a sum. -/
theorem residueAt_addEntries {a b : List ℕ} (same : a.length = b.length) (smallA : InField a)
    (smallB : InField b) : residueAt (addEntries a b) = residueAt a + residueAt b := by
  funext j
  apply ZMod.val_injective 257
  rw [Pi.add_apply, ← add257_val, val_residueAt smallA, val_residueAt smallB, residueAt,
    ZMod.val_natCast]
  by_cases inside : j < a.length
  · have entry : (addEntries a b).getD j 0 = add257 (a.getD j 0) (b.getD j 0) := by
      rw [addEntries, List.getD_eq_getElem _ _ (by rw [List.length_zipWith]; omega),
        List.getElem_zipWith, List.getD_eq_getElem _ _ inside, List.getD_eq_getElem _ _ (by omega)]
    rw [entry]
    exact Nat.mod_eq_of_lt (Nat.mod_lt _ (by decide))
  · have outside : (addEntries a b).length ≤ j := by
      rw [addEntries, List.length_zipWith]
      omega
    rw [List.getD_eq_default _ _ outside, List.getD_eq_default _ _ (by omega),
      List.getD_eq_default _ _ (by omega)]
    rfl

/-- The residues of a multiple. -/
theorem residueAt_scaleEntries {c : ℕ} {a : List ℕ} (scalar : c < 257) (small : InField a) :
    residueAt (scaleEntries c a) = fun j => (c : Residue) * residueAt a j := by
  have factor : (c : Residue).val = c := by rw [ZMod.val_natCast, Nat.mod_eq_of_lt scalar]
  funext j
  apply ZMod.val_injective 257
  rw [← mult257_val, factor, val_residueAt small, residueAt,
    ZMod.val_natCast]
  by_cases inside : j < a.length
  · have entry : (scaleEntries c a).getD j 0 = mult257 c (a.getD j 0) := by
      rw [scaleEntries, List.getD_eq_getElem _ _ (by rwa [List.length_map]), List.getElem_map,
        List.getD_eq_getElem _ _ inside]
    rw [entry]
    exact Nat.mod_eq_of_lt (Nat.mod_lt _ (by decide))
  · have outside : (scaleEntries c a).length ≤ j := by
      rw [scaleEntries, List.length_map]
      omega
    rw [List.getD_eq_default _ _ outside, List.getD_eq_default _ _ (by omega)]
    rfl

/-- Sums of residues are residues. -/
theorem InField.addEntries (a b : List ℕ) : InField (addEntries a b) := by
  intro x inside
  unfold Ecc.addEntries at inside
  obtain ⟨j, below, rfl⟩ := List.mem_iff_getElem.mp inside
  rw [List.getElem_zipWith]
  exact Nat.mod_lt _ (by decide)

/-- Multiples of residues are residues. -/
theorem InField.scaleEntries (c : ℕ) (a : List ℕ) : InField (scaleEntries c a) := by
  intro x inside
  obtain ⟨entry, -, rfl⟩ := List.mem_map.mp inside
  exact Nat.mod_lt _ (by decide)

/-- Whatever integers `findW` answers, the recursion answers residues for every vector of residues
whose length is a power of two, and maps sums to sums and multiples to multiples. -/
theorem recursiveFFT_linear (findW : ℕ → ℤ) {level : ℕ} {a b : List ℕ} {c : ℕ}
    (lengthA : a.length = 2 ^ level) (lengthB : b.length = 2 ^ level) (smallA : InField a)
    (smallB : InField b) (scalar : c < 257) :
    ∃ y z, recursiveFFT findW a = some y ∧ recursiveFFT findW b = some z ∧
      y.length = 2 ^ level ∧ InField y ∧
        recursiveFFT findW (addEntries a b) = some (addEntries y z) ∧
          recursiveFFT findW (scaleEntries c a) = some (scaleEntries c y) := by
  have lengthSum : (addEntries a b).length = 2 ^ level := by
    rw [addEntries, List.length_zipWith, lengthA, lengthB, Nat.min_self]
  have lengthMultiple : (scaleEntries c a).length = 2 ^ level := by
    rw [scaleEntries, List.length_map, lengthA]
  have factor : (c : Residue).val = c := by rw [ZMod.val_natCast, Nat.mod_eq_of_lt scalar]
  refine ⟨_, _, recursiveFFT_eq findW lengthA smallA, recursiveFFT_eq findW lengthB smallB,
    ?_, ?_, ?_, ?_⟩
  · rw [List.length_map, List.length_range]
  · intro x inside
    obtain ⟨k, -, rfl⟩ := List.mem_map.mp inside
    exact ZMod.val_lt _
  · rw [recursiveFFT_eq findW lengthSum (InField.addEntries a b),
      residueAt_addEntries (lengthA.trans lengthB.symm) smallA smallB, addEntries,
      List.zipWith_map, List.zipWith_self]
    congr 1
    apply List.map_congr_left
    intro k _
    rw [transform_add, add257_val]
  · rw [recursiveFFT_eq findW lengthMultiple (InField.scaleEntries c a),
      residueAt_scaleEntries scalar smallA, scaleEntries, List.map_map]
    congr 1
    apply List.map_congr_left
    intro k _
    rw [transform_scaled, Function.comp_apply, ← mult257_val, factor]

/-- Two vectors of two entries, with a root that is negative. -/
theorem recursiveFFT_linear_two : ∃ y z, recursiveFFT (fun _ => -129) [1, 256] = some y ∧
    recursiveFFT (fun _ => -129) [5, 7] = some z ∧ y.length = 2 ^ 1 ∧ InField y ∧
      recursiveFFT (fun _ => -129) (addEntries [1, 256] [5, 7]) = some (addEntries y z) ∧
        recursiveFFT (fun _ => -129) (scaleEntries 3 [1, 256]) = some (scaleEntries 3 y) :=
  recursiveFFT_linear (fun _ => -129) rfl rfl (by decide) (by decide) (by decide)

end TinyTools.Ecc
