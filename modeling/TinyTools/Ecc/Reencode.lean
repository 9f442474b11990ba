import TinyTools.Ecc.Erasure

/-!
# Encoding a decoded word again

The decoder is given any word of field symbols and erasure markers, not only a damaged codeword.
With `k` survivors or more it interpolates the first `k` of them, so encoding the answer restores
them. With fewer survivors the selection keeps fewer than `k` rows of `k + 1` entries, and the
elimination takes a power of the generator where it expects the received symbol: the column of the
matrix behind as many columns as there are rows. The answer then interpolates these powers.
-/

open Finset TinyTools.Lib

namespace TinyTools.Ecc

/-- Encoding what the decoder answers gives the word back at the first `k` survivors, or at all of
them when there are fewer. -/
def Restores (k n length : ℕ) (word : List ℕ) : Prop :=
  ∃ message codeword, decoder k n word = some message ∧ dfsEncoder length message = some codeword ∧
    ∀ i ∈ (survivors word).take k, codeword[i]? = word[i]?

/-- Filling a message up with zeros keeps its values. -/
theorem evaluate_resize {rows k : ℕ} (few : rows ≤ k) (x : ℕ → Symbol) (i : ℕ) :
    evaluate k (fun j => if j < rows then x j else 0) i = evaluate rows x i := by
  unfold evaluate
  rw [← sum_range_add_sum_Ico _ few]
  have head : ∑ j ∈ range rows, (Symbol.generator ^ i) ^ j * (if j < rows then x j else 0) =
      ∑ j ∈ range rows, (Symbol.generator ^ i) ^ j * x j :=
    sum_congr rfl fun j hj => by rw [if_pos (mem_range.mp hj)]
  have tail : ∑ j ∈ Ico rows k, (Symbol.generator ^ i) ^ j * (if j < rows then x j else 0) = 0 := by
    apply sum_eq_zero
    intro j hj
    have behind := (mem_Ico.mp hj).1
    rw [if_neg (by omega), mul_zero]
  rw [head, tail, add_zero]

/-- The resized answer holds the solved symbols and zeros behind them. -/
theorem resize_symbols {rows k : ℕ} (few : rows ≤ k) (x : ℕ → Symbol) :
    resize ((List.range rows).map fun j => (x j).val) k =
      ((List.range k).map fun j => if j < rows then x j else 0).map Symbol.val := by
  apply List.ext_getElem
  · simp [resize, few]
  · intro j left right
    have inside : j < k := by simpa using right
    by_cases solved : j < rows
    · simp [resize, solved, inside]
    · simp [resize, List.getElem_append, solved]

/-- Encoding the decoded word takes, at every kept position, the value the elimination had in the
column it read as the constants. -/
theorem dfsEncoder_decoder {k n length rows : ℕ} {word : List ℕ} (value : ℕ → Symbol)
    (kept : rows = min k (survivors word).length) (short : word.length ≤ 255)
    (fits : k ≤ word.length) (covers : word.length ≤ length)
    (constants : ∀ i ∈ survivors word, (keptRow k word i)[rows]? = some (value i).val) :
    ∃ message codeword, decoder k n word = some message ∧
      dfsEncoder length message = some codeword ∧
      ∀ i ∈ (survivors word).take k, codeword[i]? = some (value i).val := by
  obtain ⟨x, decoded, unique⟩ := decoder_rows k n word value kept short fits constants
  have few : rows ≤ k := by omega
  rw [resize_symbols few] at decoded
  have encoded := dfsEncoder_symbols length
    ((List.range k).map fun j => if j < rows then x j else 0) (by simp; omega)
  refine ⟨_, _, decoded, encoded, fun i member => ?_⟩
  obtain ⟨r, found⟩ := List.getElem?_of_mem member
  have inside := (List.getElem?_eq_some_iff.mp found).1
  rw [List.length_take] at inside
  have position : (survivors word).getD r 0 = i := by
    rw [List.getElem?_take_of_lt (by omega)] at found
    rw [List.getD_eq_getElem?_getD, found, Option.getD_some]
  have row := (unique x).mpr (fun _ _ => rfl) r (by omega)
  have place := survivors_lt (List.mem_of_mem_take member)
  rw [position] at row
  rw [← row, List.getElem?_map, List.getElem?_range (by omega), Option.map_some,
    ← evaluate_resize few x, List.length_map, List.length_range]
  congr 2
  apply sum_congr rfl
  intro j hj
  have column := mem_range.mp hj
  simp [List.getD_eq_getElem?_getD, List.getElem?_range column]

/-- Encoding a decoded word restores the first survivors exactly when there are `k` of them, or
when every survivor already is the power of its node that the elimination takes for it. -/
theorem restores_iff (k n length : ℕ) (word : List ℕ) (short : word.length ≤ 255)
    (fits : k ≤ word.length) (covers : word.length ≤ length)
    (entries : ∀ x ∈ word, x < 256 ∨ 256 < x) :
    Restores k n length word ↔ k ≤ (survivors word).length ∨
      ∀ i ∈ survivors word,
        word[i]? = some ((Symbol.generator ^ i) ^ (survivors word).length).val := by
  have present (i : ℕ) (member : i ∈ survivors word) : word[i]? = some (word.getD i 0) := by
    rw [List.getD_eq_getElem _ _ (survivors_lt member),
      List.getElem?_eq_getElem (survivors_lt member)]
  by_cases enough : k ≤ (survivors word).length
  · have symbol (i : ℕ) (member : i ∈ survivors word) : word.getD i 0 < 256 := by
      have unmarked : word.getD i 0 ≤ 256 := by simpa using (List.mem_filter.mp member).2
      have entry := entries _ (List.mem_of_getElem? (present i member))
      omega
    let value (i : ℕ) : Symbol := ⟨word.getD i 0 % 256, Nat.mod_lt _ (by decide)⟩
    have lifted (i : ℕ) (member : i ∈ survivors word) : (value i).val = word.getD i 0 :=
      Nat.mod_eq_of_lt (symbol i member)
    have restored : Restores k n length word := by
      obtain ⟨message, codeword, decoded, encoded, same⟩ :=
        dfsEncoder_decoder (n := n) value (Nat.min_eq_left enough).symm short fits
          covers (fun i member => by rw [keptRow_last, lifted i member])
      refine ⟨message, codeword, decoded, encoded, fun i member => ?_⟩
      have survived := List.mem_of_mem_take member
      rw [same i member, present i survived, lifted i survived]
    exact iff_of_true restored (Or.inl enough)
  · have few : (survivors word).length < k := Nat.lt_of_not_le enough
    have all : (survivors word).take k = survivors word := List.take_of_length_le (Nat.le_of_lt few)
    obtain ⟨message, codeword, decoded, encoded, powers⟩ := dfsEncoder_decoder (n := n)
      (fun i => (Symbol.generator ^ i) ^ (survivors word).length)
      (Nat.min_eq_right (Nat.le_of_lt few)).symm short fits covers (fun i _ => by
        rw [keptRow, List.getElem?_append_left (by simpa using few)]
        simp [List.getElem?_range few])
    rw [all] at powers
    constructor
    · rintro ⟨message', codeword', decoded', encoded', same⟩
      right
      intro i member
      obtain rfl : message = message' := Option.some.inj (decoded.symm.trans decoded')
      obtain rfl : codeword = codeword' := Option.some.inj (encoded.symm.trans encoded')
      rw [← powers i member, same i (all.symm ▸ member)]
    · intro condition
      have own := condition.resolve_left enough
      refine ⟨message, codeword, decoded, encoded, fun i member => ?_⟩
      rw [all] at member
      rw [powers i member, own i member]

/-- One survivor of a word of two entries is not restored unless it holds one. -/
theorem restores_iff_lone : Restores 2 2 2 [5, 300] ↔ 2 ≤ (survivors [5, 300]).length ∨
    ∀ i ∈ survivors [5, 300],
      [5, 300][i]? = some ((Symbol.generator ^ i) ^ (survivors [5, 300]).length).val :=
  restores_iff 2 2 2 [5, 300] (by decide) (by decide) (by decide) (by decide)

/-- With one survivor the decoder answers a constant one, whatever the survivor holds. -/
theorem not_restores_lone : ¬ Restores 2 2 2 [5, 300] := by
  rintro ⟨message, codeword, decoded, encoded, same⟩
  have first : decoder 2 2 [5, 300] = some [1, 0] := by decide
  obtain rfl : [1, 0] = message := Option.some.inj (first.symm.trans decoded)
  have again : dfsEncoder 2 [1, 0] = some [1, 1] := by decide
  obtain rfl : [1, 1] = codeword := Option.some.inj (again.symm.trans encoded)
  have kept := same 0 (by decide)
  simp at kept

end TinyTools.Ecc
