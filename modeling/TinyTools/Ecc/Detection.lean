import TinyTools.Ecc.Erasure
import TinyTools.Lib.Interpolation

/-!
# Corrupted symbols

The decoder takes every symbol below 257 for what was sent. Whether it was can be found out by
encoding the answer again: as long as erased and corrupted positions together are no more than those
that the code has over the message, the survivors come out as they were received only when none of
them was corrupted. With one corrupted position more another codeword may have been received.
-/

open Finset TinyTools.Lib

namespace TinyTools.Ecc

/-- A word received for a codeword: markers at the erased positions, and any symbols at those that
may be corrupted. -/
structure Received (codeword : List ℕ) (erased corrupted : Finset ℕ) (word : List ℕ) : Prop where
  /-- No position is missing. -/
  length : word.length = codeword.length
  /-- Markers. -/
  markers : ∀ i ∈ erased, 256 < word.getD i 0
  /-- Symbols. -/
  symbols : ∀ i < codeword.length, i ∉ erased → word.getD i 0 < 256
  /-- The other positions are as they were sent. -/
  others : ∀ i < codeword.length, i ∉ erased → i ∉ corrupted →
    word.getD i 0 = codeword.getD i 0

/-- Encoding what the decoder answers gives back every survivor. -/
def Confirmed (k n : ℕ) (word : List ℕ) : Prop :=
  ∃ message codeword, decoder k n word = some message ∧ dfsEncoder n message = some codeword ∧
    ∀ i ∈ survivors word, codeword.getD i 0 = word.getD i 0

/-- Whatever is received instead of the corrupted positions, it is confirmed exactly when no
survivor was changed. -/
def Detects (k n : ℕ) (m : List ℕ) (erased corrupted : Finset ℕ) : Prop :=
  ∀ codeword word, dfsEncoder n m = some codeword → Received codeword erased corrupted word →
    (Confirmed k n word ↔ ∀ i < n, i ∉ erased → word.getD i 0 = codeword.getD i 0)

/-- The powers of the generator are different points. -/
theorem generator_distinct {n : ℕ} (short : n ≤ 255) {at_ : Finset ℕ} (inside : at_ ⊆ range n) :
    Set.InjOn (fun i => Symbol.generator ^ i) (at_ : Set ℕ) := by
  intro i first j second same
  have bound (i : ℕ) (member : i ∈ at_) : i < 255 :=
    (mem_range.mp (inside member)).trans_le short
  exact Symbol.generator_pow_injective (bound i first) (bound j second) same

/-- A codeword position by position. -/
theorem dfsEncoder_getD {n : ℕ} {message : List Symbol} (fits : message.length ≤ n)
    {codeword : List ℕ} (encoded : dfsEncoder n (message.map Symbol.val) = some codeword) :
    codeword.length = n ∧ ∀ i < n, codeword.getD i 0 =
      (evaluate message.length (fun j => message.getD j 0) i).val := by
  rw [dfsEncoder_symbols n message fits] at encoded
  obtain rfl := Option.some.inj encoded
  constructor
  · rw [List.length_map, List.length_range]
  · intro i inside
    rw [List.getD_eq_getElem _ _ (by simpa using inside), List.getElem_map, List.getElem_range]

/-- The survivors of a received word. -/
theorem Received.mem_survivors {codeword word : List ℕ} {erased corrupted : Finset ℕ}
    (received : Received codeword erased corrupted word) {i : ℕ} :
    i ∈ survivors word ↔ i < codeword.length ∧ i ∉ erased := by
  unfold survivors
  rw [List.mem_filter, List.mem_range, decide_eq_true_iff, received.length]
  constructor
  · rintro ⟨inside, small⟩
    refine ⟨inside, fun gone => ?_⟩
    have marker := received.markers i gone
    omega
  · rintro ⟨inside, kept⟩
    have symbol := received.symbols i inside kept
    exact ⟨inside, by omega⟩

/-- Every position survives or was erased. -/
theorem Received.survivors_length {codeword word : List ℕ} {erased corrupted : Finset ℕ}
    (received : Received codeword erased corrupted word)
    (inside : erased ⊆ range codeword.length) :
    (survivors word).length + erased.card = codeword.length := by
  have same : (survivors word).toFinset = range codeword.length \ erased := by
    ext i
    rw [List.mem_toFinset, received.mem_survivors, mem_sdiff, mem_range]
  have count := card_sdiff_add_card_eq_card inside
  rwa [← same, List.toFinset_card_of_nodup (survivors_nodup word), card_range] at count

section

variable {k n : ℕ} {word : List ℕ} {value : ℕ → Symbol}

/-- What the decoder answers to `k` survivors or more, and what that encodes to. -/
theorem decoder_encoded (length : word.length = n) (short : n ≤ 255)
    (enough : k ≤ (survivors word).length)
    (symbols : ∀ i ∈ survivors word, word.getD i 0 = (value i).val) :
    ∃ x : ℕ → Symbol, ∃ message codeword, decoder k n word = some message ∧
      dfsEncoder n message = some codeword ∧
      (∀ i < n, codeword.getD i 0 = (evaluate k x i).val) ∧
      ∀ y : ℕ → Symbol, (∀ i ∈ survivors word, evaluate k y i = value i) → ∀ j < k, y j = x j := by
  have fits : k ≤ n := by
    have bound : (survivors word).length ≤ word.length := by
      unfold survivors
      exact (List.length_filter_le _ _).trans_eq List.length_range
    omega
  obtain ⟨x, decoded, unique⟩ :=
    decoder_solves k n word value (length.trans_le short) enough symbols
  let message := (List.range k).map x
  have count : message.length = k := by rw [List.length_map, List.length_range]
  have answer : (List.range k).map (fun j => (x j).val) = message.map Symbol.val := by
    rw [List.map_map]
    rfl
  have entries (j : ℕ) (inside : j < k) : message.getD j 0 = x j := by
    rw [List.getD_eq_getElem _ _ (by rwa [count]), List.getElem_map, List.getElem_range]
  have encoded := dfsEncoder_symbols n message (by rwa [count])
  refine ⟨x, _, _, decoded, answer ▸ encoded, fun i inside => ?_, fun y values => ?_⟩
  · rw [(dfsEncoder_getD (by rwa [count]) encoded).2 i inside, count]
    exact congrArg Symbol.val (valueAt_congr entries (Symbol.generator ^ i))
  · apply (unique y).mp
    intro r inside
    apply values
    exact survivors_getD (inside.trans_le enough)

/-- The survivors of a codeword are confirmed. -/
theorem confirmed_of_evaluate (length : word.length = n) (short : n ≤ 255)
    (enough : k ≤ (survivors word).length) (y : ℕ → Symbol)
    (symbols : ∀ i ∈ survivors word, word.getD i 0 = (evaluate k y i).val) :
    Confirmed k n word := by
  obtain ⟨x, message, codeword, decoded, encoded, values, unique⟩ :=
    decoder_encoded length short enough symbols
  refine ⟨message, codeword, decoded, encoded, fun i survives => ?_⟩
  have inside : i < n := length ▸ survivors_lt survives
  have same := unique y fun _ _ => rfl
  rw [values i inside, symbols i survives]
  exact congrArg Symbol.val (valueAt_congr (fun j before => (same j before).symm) _)

end

section

variable {n : ℕ} {message : List Symbol} {erased corrupted : Finset ℕ} {codeword word : List ℕ}

/-- Where few enough positions are erased or corrupted, what is confirmed is what was sent. -/
theorem Confirmed.unchanged (confirmed : Confirmed message.length n word) (short : n ≤ 255)
    (inside : erased ∪ corrupted ⊆ range n)
    (few : (erased ∪ corrupted).card + message.length ≤ n)
    (encoded : dfsEncoder n (message.map Symbol.val) = some codeword)
    (received : Received codeword erased corrupted word) :
    ∀ i < n, i ∉ erased → word.getD i 0 = codeword.getD i 0 := by
  obtain ⟨long, values⟩ := dfsEncoder_getD (by omega) encoded
  have size : word.length = n := received.length.trans long
  have survive := received.survivors_length (subset_union_left.trans (long.symm ▸ inside))
  have fewer := card_le_card (subset_union_left : erased ⊆ erased ∪ corrupted)
  have count := card_sdiff_add_card_eq_card inside
  rw [card_range] at count
  let value (i : ℕ) : Symbol := ⟨word.getD i 0 % 256, Nat.mod_lt _ (by decide)⟩
  have lifted (i : ℕ) (survives : i ∈ survivors word) : word.getD i 0 = (value i).val := by
    obtain ⟨here, kept⟩ := received.mem_survivors.mp survives
    exact (Nat.mod_eq_of_lt (received.symbols i here kept)).symm
  obtain ⟨x, answer, again, decoded, encodedAgain, restored, -⟩ :=
    decoder_encoded size short (by omega : message.length ≤ _) lifted
  obtain ⟨answer', again', decoded', encodedAgain', same⟩ := confirmed
  obtain rfl : answer = answer' := Option.some.inj (decoded.symm.trans decoded')
  obtain rfl : again = again' := Option.some.inj (encodedAgain.symm.trans encodedAgain')
  -- the two codewords agree wherever nothing may have been changed, and that is often enough
  have agree : ∀ i ∈ range n \ (erased ∪ corrupted),
      evaluate message.length x i = evaluate message.length (fun j => message.getD j 0) i := by
    intro i stays
    rw [mem_sdiff, mem_union, not_or, mem_range] at stays
    obtain ⟨here, kept, right⟩ := stays
    have place : i < codeword.length := long.symm ▸ here
    have survives := received.mem_survivors.mpr ⟨place, kept⟩
    apply Symbol.ext
    calc (evaluate message.length x i).val = again.getD i 0 := (restored i here).symm
      _ = word.getD i 0 := same i survives
      _ = codeword.getD i 0 := received.others i place kept right
      _ = _ := values i here
  have coefficients := coefficients_eq (generator_distinct short sdiff_subset)
    (by omega : message.length ≤ _) agree
  intro i here kept
  have survives := received.mem_survivors.mpr ⟨long.symm ▸ here, kept⟩
  rw [← same i survives, restored i here, values i here]
  exact congrArg Symbol.val (valueAt_congr coefficients _)

/-- Where too many are, another codeword may be received: it differs from the one that was sent at
every corrupted position. -/
theorem exists_undetected (short : n ≤ 255) (fits : message.length ≤ n)
    (inside : erased ∪ corrupted ⊆ range n) (enough : erased.card + message.length ≤ n)
    (many : n < (erased ∪ corrupted).card + message.length)
    (encoded : dfsEncoder n (message.map Symbol.val) = some codeword) :
    ∃ word, Received codeword erased corrupted word ∧ Confirmed message.length n word ∧
      ∀ i ∈ corrupted, i ∉ erased → word.getD i 0 ≠ codeword.getD i 0 := by
  obtain ⟨long, values⟩ := dfsEncoder_getD fits encoded
  have count := card_sdiff_add_card_eq_card inside
  rw [card_range] at count
  have distinct := generator_distinct short (subset_refl (range n))
  obtain ⟨change, zeros⟩ := exists_vanishing sdiff_subset distinct
    (by omega : (range n \ (erased ∪ corrupted)).card < message.length)
  let other (j : ℕ) : Symbol := message.getD j 0 + change j
  have sum (i : ℕ) : evaluate message.length other i =
      evaluate message.length (fun j => message.getD j 0) i + evaluate message.length change i :=
    valueAt_add _ _ _ _
  let word := (List.range n).map fun i =>
    if i ∈ erased then 257 else (evaluate message.length other i).val
  have size : word.length = n := by rw [List.length_map, List.length_range]
  have entry (i : ℕ) (here : i < n) : word.getD i 0 =
      if i ∈ erased then 257 else (evaluate message.length other i).val := by
    rw [List.getD_eq_getElem _ _ (size.symm ▸ here), List.getElem_map, List.getElem_range]
  have received : Received codeword erased corrupted word := by
    constructor
    · rw [size, long]
    · intro i gone
      rw [entry i (mem_range.mp (inside (mem_union_left _ gone))), if_pos gone]
      decide
    · intro i here kept
      rw [entry i (long ▸ here), if_neg kept]
      exact Symbol.lt _
    · intro i here kept right
      have place : i < n := long ▸ here
      have stays : i ∈ range n \ (erased ∪ corrupted) := by
        rw [mem_sdiff, mem_union, not_or]
        exact ⟨mem_range.mpr place, kept, right⟩
      have zero : evaluate message.length change i = 0 :=
        (zeros i (mem_range.mpr place)).mpr stays
      rw [entry i place, if_neg kept, sum, zero, add_zero, values i place]
  have survive := received.survivors_length (subset_union_left.trans (long.symm ▸ inside))
  refine ⟨word, received, ?_, fun i changed kept same => ?_⟩
  · apply confirmed_of_evaluate size short (by omega) other
    intro i survives
    obtain ⟨here, kept⟩ := received.mem_survivors.mp survives
    rw [entry i (long ▸ here), if_neg kept]
  · have here : i ∈ range n := inside (mem_union_right _ changed)
    rw [entry i (mem_range.mp here), if_neg kept, values i (mem_range.mp here), sum] at same
    have zero : evaluate message.length change i = 0 := add_eq_left.mp (Symbol.ext same)
    have stays := (zeros i here).mp zero
    exact (mem_sdiff.mp stays).2 (mem_union_right _ changed)

end

/-- Encoding again detects every corruption of some positions exactly when they and the erased ones
are no more than the codeword has over the message. -/
theorem detects_iff (k n : ℕ) (m : List ℕ) (erased corrupted : Finset ℕ) (short : n ≤ 255)
    (length : m.length = k) (symbols : ∀ x ∈ m, x < 256) (inside : erased ∪ corrupted ⊆ range n)
    (apart : Disjoint erased corrupted) (enough : erased.card + k ≤ n) :
    Detects k n m erased corrupted ↔ erased.card + corrupted.card + k ≤ n := by
  obtain ⟨message, rfl⟩ := symbols_lift symbols
  rw [List.length_map] at length
  subst length
  have fits : message.length ≤ n := by omega
  have both := card_union_of_disjoint apart
  constructor
  · intro detects
    by_contra many
    have encoded := dfsEncoder_symbols n message fits
    obtain ⟨word, received, confirmed, changed⟩ :=
      exists_undetected short fits inside enough (by omega) encoded
    obtain ⟨i, among⟩ : corrupted.Nonempty := card_pos.mp (by omega)
    have kept : i ∉ erased := disjoint_right.mp apart among
    have here : i < n := mem_range.mp (inside (mem_union_right _ among))
    exact changed i among kept ((detects _ word encoded received).mp confirmed i here kept)
  · intro few codeword word encoded received
    constructor
    · intro confirmed
      exact confirmed.unchanged short inside (by omega) encoded received
    · intro unchanged
      obtain ⟨long, values⟩ := dfsEncoder_getD fits encoded
      have survive := received.survivors_length (subset_union_left.trans (long.symm ▸ inside))
      apply confirmed_of_evaluate (received.length.trans long) short (by omega)
        fun j => message.getD j 0
      intro i survives
      obtain ⟨here, kept⟩ := received.mem_survivors.mp survives
      rw [unchanged i (long ▸ here) kept, values i (long ▸ here)]

/-- A message of two symbols in four positions, one of them erased: one corrupted symbol more is
detected. -/
theorem detects_iff_one : Detects 2 4 [7, 200] {0} {3} ↔ ({0} : Finset ℕ).card +
    ({3} : Finset ℕ).card + 2 ≤ 4 :=
  detects_iff 2 4 [7, 200] {0} {3} (by decide) rfl (by decide) (by decide) (by decide) (by decide)

end TinyTools.Ecc
