import TinyTools.Ecc.Erasure

/-!
# Which symbols are erasures

The decoder skips symbols above 256, so that 256 itself, which is no field symbol, is kept as the
constant of a row. Elimination only adds field symbols to it, and the division of that row looks it
up outside the table. So the words that differ in their markers alone are decoded alike exactly when
no marker 256 is among the symbols the decoder keeps.
-/

open Finset TinyTools.Lib

namespace TinyTools.Ecc

/-! ## Symbols outside the field -/

/-- The logarithm table ends at the field. -/
theorem lookup_log_some {x value : ℕ} (found : lookup logTable x = some value) : x < 256 := by
  by_contra outside
  have rows : logTable.length = 16 := rfl
  have missing : logTable[x / 16]? = none := List.getElem?_eq_none (by omega)
  unfold lookup at found
  rw [missing] at found
  cases found

/-- A product is a symbol, and one of its operands is zero where the other is none. -/
theorem multiply28_some {x y value : ℕ} (found : multiply28 x y = some value) :
    value < 256 ∧ (x = 0 ∨ y = 0 ∨ x < 256 ∧ y < 256) := by
  by_cases zero : x = 0 ∨ y = 0
  · unfold multiply28 at found
    rw [if_pos zero] at found
    obtain rfl := Option.some.inj found
    exact ⟨by decide, zero.imp_right Or.inl⟩
  · have operands : x < 256 ∧ y < 256 := by
      unfold multiply28 at found
      rw [if_neg zero] at found
      obtain ⟨logX, first, found⟩ := Option.bind_eq_some_iff.mp found
      obtain ⟨logY, second, -⟩ := Option.bind_eq_some_iff.mp found
      exact ⟨lookup_log_some first, lookup_log_some second⟩
    rw [multiply28_symbols operands.1 operands.2] at found
    obtain rfl := Option.some.inj found
    exact ⟨product_lt x y, Or.inr (Or.inr operands)⟩

/-- The low byte of an operand gives the same product. -/
theorem multiply28_mod {x y value : ℕ} (found : multiply28 x y = some value) :
    multiply28 x (y % 256) = some value := by
  rcases (multiply28_some found).2 with rfl | rfl | ⟨-, inside⟩
  · rw [← found, multiply28, multiply28, if_pos (Or.inl rfl), if_pos (Or.inl rfl)]
  · exact found
  · rwa [Nat.mod_eq_of_lt inside]

/-- A difference with a symbol keeps what is above the low byte. -/
theorem sub28_symbol (x : ℕ) {y : ℕ} (symbol : y < 256) :
    sub28 x y % 256 = sub28 (x % 256) y ∧ sub28 x y / 256 = x / 256 := by
  constructor
  · rw [sub28, sub28, show 256 = 2 ^ 8 from rfl, Nat.xor_mod_two_pow, Nat.mod_eq_of_lt symbol]
  · rw [sub28, show 256 = 2 ^ 8 from rfl, Nat.xor_div_two_pow, Nat.div_eq_of_lt symbol,
      Nat.xor_zero]

/-! ## Reads and writes -/

/-- The low bytes of all entries. -/
def lowBytes (M : List (List ℕ)) : List (List ℕ) := M.map fun row => row.map (· % 256)

/-- The low byte is read. -/
theorem readAt_lowBytes (M : List (List ℕ)) (i j : ℕ) :
    readAt (lowBytes M) i j = (readAt M i j).map (· % 256) := by
  unfold readAt lowBytes
  rw [List.getElem?_map]
  cases M[i]? with
  | none => rfl
  | some row => exact List.getElem?_map

/-- What is read after a write. -/
theorem readAt_writeAt {M N : List (List ℕ)} {i j x : ℕ} (wrote : writeAt M i j x = some N)
    (a b : ℕ) : readAt N a b = if a = i ∧ b = j then some x else readAt M a b := by
  obtain ⟨row, found, wrote⟩ := Option.bind_eq_some_iff.mp wrote
  obtain ⟨row', stored, wrote⟩ := Option.bind_eq_some_iff.mp wrote
  have inside : i < M.length := (List.getElem?_eq_some_iff.mp found).1
  unfold store at stored wrote
  split_ifs at stored wrote with inRow
  obtain rfl := Option.some.inj stored
  obtain rfl := Option.some.inj wrote
  unfold readAt
  by_cases sameRow : a = i
  · subst sameRow
    rw [List.getElem?_set_self inside, found]
    simp only [Option.bind_eq_bind, Option.bind_some, true_and]
    by_cases sameColumn : b = j
    · rw [sameColumn, List.getElem?_set_self inRow, if_pos rfl]
    · rw [List.getElem?_set_ne (fun same => sameColumn same.symm), if_neg sameColumn]
  · rw [List.getElem?_set_ne (fun same => sameRow same.symm), if_neg fun both => sameRow both.1]

/-- The low byte is written. -/
theorem writeAt_lowBytes {M N : List (List ℕ)} {i j x : ℕ} (wrote : writeAt M i j x = some N) :
    writeAt (lowBytes M) i j (x % 256) = some (lowBytes N) := by
  obtain ⟨row, found, wrote⟩ := Option.bind_eq_some_iff.mp wrote
  obtain ⟨row', stored, wrote⟩ := Option.bind_eq_some_iff.mp wrote
  unfold store at stored wrote
  split_ifs at stored wrote with inRow inside
  obtain rfl := Option.some.inj stored
  obtain rfl := Option.some.inj wrote
  have foundLow : (lowBytes M)[i]? = some (row.map (· % 256)) := by
    rw [lowBytes, List.getElem?_map, found]
    rfl
  simp only [writeAt, foundLow, store, List.length_map, if_pos inRow, Option.bind_eq_bind,
    Option.bind_some]
  rw [if_pos (by rwa [lowBytes, List.length_map])]
  simp only [lowBytes, List.map_set]

/-- The entries in front of the constants are symbols, and some constant is none. -/
structure Marked (n : ℕ) (M : List (List ℕ)) : Prop where
  /-- The entries in front of the constants. -/
  small : ∀ i < n, ∀ j < n, ∀ entry, readAt M i j = some entry → entry < 256
  /-- A constant outside the field. -/
  marked : ∃ i < n, ∃ entry, readAt M i n = some entry ∧ 256 ≤ entry

variable {n i k : ℕ} {M N : List (List ℕ)}

/-- The low byte of a symbol is the symbol. -/
theorem Marked.readAt_lowBytes (marked : Marked n M) {j entry : ℕ} (hi : i < n) (hj : j < n)
    (found : readAt M i j = some entry) : readAt (lowBytes M) i j = some entry := by
  rw [Ecc.readAt_lowBytes, found, Option.map_some,
    Nat.mod_eq_of_lt (marked.small i hi j hj _ found)]

/-! ## The forward loop -/

/-- A swap of one column is a swap of its low bytes, and keeps the constant outside the field. -/
theorem swapEntry_lowBytes {r : ℕ} (hi : i < n) (hr : r < n) (before : Marked n M)
    (ran : swapEntry i r k M = some N) :
    swapEntry i r k (lowBytes M) = some (lowBytes N) ∧ Marked n N := by
  obtain ⟨tmp, lower, ran⟩ := Option.bind_eq_some_iff.mp ran
  obtain ⟨entry, upper, ran⟩ := Option.bind_eq_some_iff.mp ran
  obtain ⟨first, wrote, wrote'⟩ := Option.bind_eq_some_iff.mp ran
  have after (a b : ℕ) : readAt N a b = if a = i ∧ b = k then some tmp
      else if a = r ∧ b = k then some entry else readAt M a b := by
    rw [readAt_writeAt wrote', readAt_writeAt wrote]
  refine ⟨?_, fun a ha b hb value found => ?_, ?_⟩
  · simp only [swapEntry, readAt_lowBytes, lower, upper, Option.map_some, Option.bind_eq_bind,
      Option.bind_some, writeAt_lowBytes wrote, writeAt_lowBytes wrote']
  · rw [after] at found
    split_ifs at found with here there
    · obtain rfl := Option.some.inj found
      exact before.small r hr k (here.2 ▸ hb) _ lower
    · obtain rfl := Option.some.inj found
      exact before.small i hi k (there.2 ▸ hb) _ upper
    · exact before.small a ha b hb _ found
  · obtain ⟨m, hm, big, found, large⟩ := before.marked
    by_cases constants : k = n
    · subst constants
      by_cases atI : m = i
      · refine ⟨r, hr, big, ?_, large⟩
        rw [after]
        by_cases same : r = i
        · rw [if_pos ⟨same, rfl⟩, ← lower, same, ← atI, found]
        · rw [if_neg fun both => same both.1, if_pos ⟨rfl, rfl⟩, ← upper, ← atI, found]
      by_cases atR : m = r
      · refine ⟨i, hi, big, ?_, large⟩
        rw [after, if_pos ⟨rfl, rfl⟩, ← lower, ← atR, found]
      · refine ⟨m, hm, big, ?_, large⟩
        rw [after, if_neg fun both => atI both.1, if_neg fun both => atR both.1, found]
    · refine ⟨m, hm, big, ?_, large⟩
      rw [after, if_neg fun both => constants both.2.symm, if_neg fun both => constants both.2.symm,
        found]

/-- One column of the elimination of a row works on its low bytes, and keeps the constant outside
the field. -/
theorem clearEntry_lowBytes {c j : ℕ} (hi : i < n) (hk : k < n) (before : Marked n M)
    (ran : clearEntry i k c j M = some N) :
    clearEntry i k c j (lowBytes M) = some (lowBytes N) ∧ Marked n N := by
  have kept (value : ℕ) (wrote : writeAt M k j value = some N) (inside : j < n → value < 256)
      (outside : ∀ entry, j = n → readAt M k j = some entry → 256 ≤ entry → 256 ≤ value) :
      Marked n N := by
    constructor
    · intro a ha b hb entry found
      rw [readAt_writeAt wrote] at found
      split_ifs at found with here
      · obtain rfl := Option.some.inj found
        exact inside (here.2 ▸ hb)
      · exact before.small a ha b hb _ found
    · obtain ⟨m, hm, big, found, large⟩ := before.marked
      by_cases here : m = k ∧ n = j
      · refine ⟨m, hm, value, ?_, outside big here.2.symm ?_ large⟩
        · rw [readAt_writeAt wrote, if_pos here]
        · rw [← here.1, ← here.2, found]
      · refine ⟨m, hm, big, ?_, large⟩
        rw [readAt_writeAt wrote, if_neg here, found]
  unfold clearEntry at ran ⊢
  split_ifs at ran ⊢ with diagonal
  · refine ⟨writeAt_lowBytes ran, kept 0 ran (fun _ => by decide) fun entry last => ?_⟩
    omega
  · obtain ⟨entry, target, ran⟩ := Option.bind_eq_some_iff.mp ran
    obtain ⟨pivotEntry, source, ran⟩ := Option.bind_eq_some_iff.mp ran
    obtain ⟨multiple, product, wrote⟩ := Option.bind_eq_some_iff.mp ran
    have symbol := (multiply28_some product).1
    obtain ⟨low, high⟩ := sub28_symbol entry symbol
    constructor
    · have written := writeAt_lowBytes wrote
      rw [low] at written
      simp only [readAt_lowBytes, target, source, Option.map_some, multiply28_mod product,
        Option.bind_eq_bind, Option.bind_some, written]
    · refine kept _ wrote (fun inside => ?_) fun constant _ found large => ?_
      · have small := before.small k hk j inside entry target
        omega
      · obtain rfl := Option.some.inj (found.symm.trans target)
        omega

/-- The elimination of a row works on its low bytes. -/
theorem clearRow_lowBytes (hi : i < n) (hk : k < n) (before : Marked n M)
    (ran : clearRow n i k M = some N) :
    clearRow n i k (lowBytes M) = some (lowBytes N) ∧ Marked n N := by
  obtain ⟨entry, target, ran⟩ := Option.bind_eq_some_iff.mp ran
  obtain ⟨pivot, diagonal, ran⟩ := Option.bind_eq_some_iff.mp ran
  obtain ⟨inverted, inverse, ran⟩ := Option.bind_eq_some_iff.mp ran
  obtain ⟨c, factor, ran⟩ := Option.bind_eq_some_iff.mp ran
  obtain ⟨mapped, after⟩ := forUp_map lowBytes (Marked n)
    (fun j M N _ _ before ran => clearEntry_lowBytes hi hk before ran) before ran
  refine ⟨?_, after⟩
  simp only [clearRow, before.readAt_lowBytes hk hi target, before.readAt_lowBytes hi hi diagonal,
    inverse, factor, Option.bind_eq_bind, Option.bind_some, mapped]

/-- One pass of the forward loop works on the low bytes. -/
theorem eliminateColumn_lowBytes (hi : i < n) (before : Marked n M)
    (ran : eliminateColumn n i M = some N) :
    eliminateColumn n i (lowBytes M) = some (lowBytes N) ∧ Marked n N := by
  obtain ⟨max, diagonal, ran⟩ := Option.bind_eq_some_iff.mp ran
  obtain ⟨found, searched, ran⟩ := Option.bind_eq_some_iff.mp ran
  obtain ⟨swapped, exchanged, ran⟩ := Option.bind_eq_some_iff.mp ran
  have start : (max, i).2 < n := hi
  have search := @forUp_map _ (searchMax M i) (searchMax (lowBytes M) i) id
    (fun state => state.2 < n) (i + 1) n (fun k state next _ below inside once => by
      obtain ⟨entry, read, chosen⟩ := Option.bind_eq_some_iff.mp once
      have same := before.readAt_lowBytes below hi read
      simp only [id_eq, searchMax, same, Option.bind_eq_bind, Option.bind_some, chosen, true_and]
      obtain rfl := Option.some.inj chosen
      split_ifs
      · exact below
      · exact inside) (max, i) found start searched
  obtain ⟨swap, middle⟩ := forUp_map lowBytes (Marked n)
    (fun k M N _ _ before ran => swapEntry_lowBytes hi search.2 before ran) before exchanged
  obtain ⟨clear, after⟩ := forUp_map lowBytes (Marked n)
    (fun k M N _ below before ran => clearRow_lowBytes hi below before ran) middle ran
  refine ⟨?_, after⟩
  have again : forUp (i + 1) n (searchMax (lowBytes M) i) (max, i) = some found := search.1
  simp only [eliminateColumn, before.readAt_lowBytes hi hi diagonal, again, swap, clear,
    Option.bind_eq_bind, Option.bind_some]

/-! ## The backward loop -/

/-- The pivots are symbols that can be inverted, and a constant of the first rows is no symbol. -/
structure Blocked (n i : ℕ) (M : List (List ℕ)) : Prop where
  /-- The pivots. -/
  diagonal : ∀ j < n, ∃ pivot, readAt M j j = some pivot ∧ pivot < 256 ∧ pivot ≠ 0
  /-- A constant outside the field. -/
  marked : ∃ r < i, ∃ entry, readAt M r n = some entry ∧ 256 ≤ entry

/-- An inverse is not zero. -/
theorem inv28_ne_zero {pivot inverted : ℕ} (symbol : pivot < 256) (nonzero : pivot ≠ 0)
    (found : inv28 pivot = some inverted) : inverted ≠ 0 := by
  rintro rfl
  have one := product_inverse symbol nonzero
  rw [Option.some.inj ((inv28_symbols symbol).symm.trans found), product,
    if_pos (Or.inr rfl)] at one
  exact absurd one (by decide)

/-- Substituting a solved value keeps the pivots and the constant outside the field. -/
theorem substitute_blocked {xi k : ℕ} (before : Blocked n i M)
    (ran : substitute n i xi k M = some N) : Blocked n i N := by
  obtain ⟨constant, target, ran⟩ := Option.bind_eq_some_iff.mp ran
  obtain ⟨entry, -, ran⟩ := Option.bind_eq_some_iff.mp ran
  obtain ⟨multiple, product, wrote⟩ := Option.bind_eq_some_iff.mp ran
  obtain ⟨-, high⟩ := sub28_symbol constant (multiply28_some product).1
  constructor
  · intro j hj
    obtain ⟨pivot, found, bounds⟩ := before.diagonal j hj
    refine ⟨pivot, ?_, bounds⟩
    rw [readAt_writeAt wrote, if_neg (by omega), found]
  · obtain ⟨r, hr, big, found, large⟩ := before.marked
    by_cases here : r = k
    · refine ⟨r, hr, _, by rw [readAt_writeAt wrote, if_pos ⟨here, rfl⟩], ?_⟩
      rw [here, target] at found
      obtain rfl := Option.some.inj found
      omega
    · exact ⟨r, hr, big, by rw [readAt_writeAt wrote, if_neg fun both => here both.1, found], large⟩

/-- A row whose constant is no symbol is not solved, so the constant is in a row above. -/
theorem solveRow_blocked (hi : i < n) {state next : List (List ℕ) × List ℕ}
    (before : Blocked n (i + 1) state.1) (ran : solveRow n i state = some next) :
    Blocked n i next.1 := by
  obtain ⟨M, x⟩ := state
  obtain ⟨constant, read, ran⟩ := Option.bind_eq_some_iff.mp ran
  obtain ⟨pivot, diagonal, ran⟩ := Option.bind_eq_some_iff.mp ran
  obtain ⟨inverted, inverse, ran⟩ := Option.bind_eq_some_iff.mp ran
  obtain ⟨xi, product, ran⟩ := Option.bind_eq_some_iff.mp ran
  obtain ⟨x', -, ran⟩ := Option.bind_eq_some_iff.mp ran
  obtain ⟨N, substituted, ran⟩ := Option.bind_eq_some_iff.mp ran
  obtain rfl := Option.some.inj ran
  obtain ⟨pivot', found, symbol, nonzero⟩ := before.diagonal i hi
  obtain rfl := Option.some.inj (diagonal.symm.trans found)
  have unit := inv28_ne_zero symbol nonzero inverse
  have above : Blocked n i M := by
    refine ⟨before.diagonal, ?_⟩
    obtain ⟨r, hr, big, held, large⟩ := before.marked
    have other : r ≠ i := by
      rintro rfl
      obtain rfl := Option.some.inj (read.symm.trans held)
      rcases (multiply28_some product).2 with zero | zero | ⟨small, -⟩
      · omega
      · exact unit zero
      · omega
    exact ⟨r, by omega, big, held, large⟩
  exact forDown_some (fun _ M => Blocked n i M)
    (fun k M N _ before ran => substitute_blocked before ran) above substituted

/-- A regular system with a constant outside the field is not solved: a look-up leaves its table. -/
theorem gaussElimination_marked {A : ℕ → ℕ → Symbol} (length : M.length = n)
    (marked : Marked n M) (grid : Grid n (n + 1) (lowBytes M) A) (regular : Regular n A) :
    gaussElimination M = none := by
  by_contra solved
  obtain ⟨answer, ran⟩ := Option.ne_none_iff_exists'.mp solved
  unfold gaussElimination at ran
  rw [length] at ran
  obtain ⟨N, forward, ran⟩ := Option.bind_eq_some_iff.mp ran
  obtain ⟨state, backward, -⟩ := Option.bind_eq_some_iff.mp ran
  obtain ⟨low, kept⟩ := forUp_map lowBytes (Marked n)
    (fun i M N _ below before ran => eliminateColumn_lowBytes below before ran) marked forward
  obtain ⟨next, B, ran', gridB, triangular, -⟩ :=
    eliminateColumn_passes grid regular (Nat.le_refl n)
  obtain rfl := Option.some.inj (low.symm.trans ran')
  have blocked : Blocked n n N := by
    refine ⟨fun j hj => ?_, kept.marked⟩
    have entry := gridB.entry j hj j (by omega)
    rw [readAt_lowBytes] at entry
    obtain ⟨pivot, found, byte⟩ := Option.map_eq_some_iff.mp entry
    refine ⟨pivot, found, kept.small j hj j hj pivot found, ?_⟩
    rintro rfl
    exact triangular.pivot j hj (Symbol.ext byte.symm)
  obtain ⟨r, none, -⟩ := (forDown_some (fun i state => Blocked n i state.1)
    (fun i state next below before ran => solveRow_blocked below before ran) blocked
      backward).marked
  exact absurd none (Nat.not_lt_zero r)

/-! ## Received words -/

/-- Two words of the same length with the same field symbols at the same positions. -/
structure SameSymbols (c c' : List ℕ) : Prop where
  /-- The length. -/
  length : c'.length = c.length
  /-- The field symbols. -/
  symbols : ∀ i < c.length, c.getD i 0 < 256 ∨ c'.getD i 0 < 256 → c'.getD i 0 = c.getD i 0

/-- The positions of the field symbols, in order. -/
def symbolPositions (c : List ℕ) : List ℕ :=
  (List.range c.length).filter fun i => c.getD i 0 < 256

/-- None of the first `k` symbols up to 256 is 256. -/
def KeepsSymbols (k : ℕ) (c : List ℕ) : Prop := ∀ i ∈ (survivors c).take k, c.getD i 0 ≠ 256

instance (k : ℕ) (c : List ℕ) : Decidable (KeepsSymbols k c) :=
  inferInstanceAs (Decidable (∀ _ ∈ _, _))

/-- The decoder answers the same for both words. -/
def DecodesAlike (k n : ℕ) (c c' : List ℕ) : Prop :=
  ∃ message, decoder k n c = some message ∧ decoder k n c' = some message

/-- A word whose markers are all above 256. -/
def remark (c : List ℕ) : List ℕ := c.map fun symbol => if symbol < 256 then symbol else 257

/-- The field symbols are those survivors that are not 256. -/
theorem symbolPositions_eq (c : List ℕ) :
    symbolPositions c = (survivors c).filter fun i => c.getD i 0 ≠ 256 := by
  rw [survivors, List.filter_filter]
  apply List.filter_congr
  intro i _
  rw [← Bool.decide_and, decide_eq_decide]
  omega

/-- Kept rows without 256 are those of the first field symbols. -/
theorem KeepsSymbols.take_eq {k : ℕ} {c : List ℕ} (keeps : KeepsSymbols k c) :
    (survivors c).take k = (symbolPositions c).take k := by
  have front : ((survivors c).take k).filter (fun i => c.getD i 0 ≠ 256) = (survivors c).take k :=
    List.filter_eq_self.mpr fun i inside => by simpa using keeps i inside
  have parts : symbolPositions c = (survivors c).take k ++
      ((survivors c).drop k).filter fun i => c.getD i 0 ≠ 256 := by
    rw [symbolPositions_eq, ← front, ← List.filter_append, List.take_append_drop]
  by_cases full : k ≤ (survivors c).length
  · have size : ((survivors c).take k).length = k := by rw [List.length_take, Nat.min_eq_left full]
    rw [parts, List.take_append_of_le_length (Nat.le_of_eq size.symm),
      List.take_of_length_le (Nat.le_of_eq size)]
  · have none : (survivors c).drop k = [] := List.drop_eq_nil_of_le (by omega)
    rw [parts, none, List.filter_nil, List.append_nil, List.take_take, Nat.min_self]

/-- The field symbols of both words are at the same positions. -/
theorem SameSymbols.positions {c c' : List ℕ} (same : SameSymbols c c') :
    symbolPositions c' = symbolPositions c := by
  rw [symbolPositions, symbolPositions, same.length]
  apply List.filter_congr
  intro i inside
  rw [decide_eq_decide]
  constructor
  · intro small
    rwa [← same.symbols i (List.mem_range.mp inside) (Or.inr small)]
  · intro small
    rwa [same.symbols i (List.mem_range.mp inside) (Or.inl small)]

/-- Words that keep the same symbols are decoded alike. -/
theorem SameSymbols.decoder_eq {k : ℕ} (n : ℕ) {c c' : List ℕ} (same : SameSymbols c c')
    (fits : k ≤ c.length) (keeps : KeepsSymbols k c) (keeps' : KeepsSymbols k c') :
    decoder k n c' = decoder k n c := by
  rw [Ecc.decoder_eq n fits, Ecc.decoder_eq n (same.length.symm ▸ fits), keeps.take_eq,
    keeps'.take_eq, same.positions]
  have rows : ((symbolPositions c).take k).map (keptRow k c') =
      ((symbolPositions c).take k).map (keptRow k c) := by
    apply List.map_congr_left
    intro i kept
    obtain ⟨inside, small⟩ := List.mem_filter.mp (List.mem_of_mem_take kept)
    rw [keptRow, keptRow, same.symbols i (List.mem_range.mp inside)
      (Or.inl (of_decide_eq_true small))]
  rw [rows]

/-- The word with its markers moved has the same symbols. -/
theorem sameSymbols_remark (c : List ℕ) : SameSymbols c (remark c) := by
  refine ⟨List.length_map _, fun i inside small => ?_⟩
  simp only [remark, List.getD_eq_getElem?_getD, List.getElem?_map, List.getElem?_eq_getElem inside,
    Option.map_some, Option.getD_some] at small ⊢
  split_ifs at small ⊢ with symbol
  · rfl
  · omega

/-- Its survivors are the field symbols. -/
theorem survivors_remark (c : List ℕ) : survivors (remark c) = symbolPositions c := by
  rw [survivors, symbolPositions, (sameSymbols_remark c).length]
  apply List.filter_congr
  intro i inside
  have position := List.mem_range.mp inside
  simp only [remark, List.getD_eq_getElem?_getD, List.getElem?_map,
    List.getElem?_eq_getElem position, Option.map_some, Option.getD_some, decide_eq_decide]
  split_ifs <;> omega

/-- A word with enough field symbols, none of whose kept symbols is 256, is decoded. -/
theorem decoder_keeps {k : ℕ} (n : ℕ) {c : List ℕ} (short : c.length ≤ 255)
    (enough : k ≤ (symbolPositions c).length) (fits : k ≤ c.length) (keeps : KeepsSymbols k c) :
    ∃ message, decoder k n c = some message := by
  have same := sameSymbols_remark c
  have symbol (i : ℕ) (kept : i ∈ survivors (remark c)) : (remark c).getD i 0 < 256 := by
    rw [survivors_remark, ← same.positions] at kept
    exact of_decide_eq_true (List.mem_filter.mp kept).2
  obtain ⟨x, decoded, -⟩ := decoder_solves k n (remark c)
    (fun i => ⟨(remark c).getD i 0 % 256, Nat.mod_lt _ (by decide)⟩) (by rwa [same.length])
    (by rwa [survivors_remark]) fun i kept => (Nat.mod_eq_of_lt (symbol i kept)).symm
  have keeps' : KeepsSymbols k (remark c) := fun i kept marker => by
    have small := symbol i (List.mem_of_mem_take kept)
    omega
  exact ⟨_, (same.decoder_eq n fits keeps keeps').symm.trans decoded⟩

/-- A word that is decoded keeps no symbol 256. -/
theorem keepsSymbols_of_decoder {k n : ℕ} {c : List ℕ} (short : c.length ≤ 255)
    (enough : k ≤ (survivors c).length) (fits : k ≤ c.length) {message : List ℕ}
    (decoded : decoder k n c = some message) : KeepsSymbols k c := by
  intro i kept marker
  let position (r : ℕ) := (survivors c).getD r 0
  let M := ((survivors c).take k).map (keptRow k c)
  have length : M.length = k := by
    rw [List.length_map, List.length_take, Nat.min_eq_left enough]
  have read (r j : ℕ) (hr : r < k) : readAt M r j = (keptRow k c (position r))[j]? :=
    keptRows_readAt hr (by omega) j
  have grid : Grid k (k + 1) (lowBytes M) (keptSystem k position fun i =>
      ⟨c.getD i 0 % 256, Nat.mod_lt _ (by decide)⟩) := by
    constructor
    · rw [lowBytes, List.length_map, length]
    · intro r hr j hj
      rw [readAt_lowBytes, read r j hr, keptSystem]
      by_cases left : j < k
      · rw [if_pos left, keptRow_power left, Option.map_some, Nat.mod_eq_of_lt (Symbol.lt _)]
      · obtain rfl : j = k := by omega
        rw [if_neg left, keptRow_last, Option.map_some]
  have regular := @keptSystem_regular k position
    (fun i => ⟨c.getD i 0 % 256, Nat.mod_lt _ (by decide)⟩)
    (fun r hr => Nat.lt_of_lt_of_le (survivors_lt (survivors_getD (by omega))) short)
    (fun r hr s hs same => survivors_injective (by omega) (by omega) same)
  have marked : Marked k M := by
    constructor
    · intro r hr j hj entry found
      rw [read r j hr, keptRow_power hj] at found
      obtain rfl := Option.some.inj found
      exact Symbol.lt _
    · obtain ⟨r, found⟩ := List.getElem?_of_mem kept
      have hr := (List.getElem?_eq_some_iff.mp found).1
      rw [List.length_take, Nat.min_eq_left enough] at hr
      rw [List.getElem?_take_of_lt hr] at found
      have here : position r = i := by
        simp only [position, List.getD_eq_getElem?_getD, found, Option.getD_some]
      exact ⟨r, hr, 256, by rw [read r k hr, keptRow_last, here, marker], le_rfl⟩
  have solved := gaussElimination_marked length marked grid regular
  rw [decoder_eq n fits] at decoded
  change (gaussElimination M).map _ = _ at decoded
  rw [solved] at decoded
  cases decoded

/-- Words that differ in their markers alone are decoded alike, without a look-up outside its table,
exactly when neither has 256 among the symbols the decoder keeps. -/
theorem decodesAlike_iff {k n : ℕ} {c c' : List ℕ} (short : c.length ≤ 255)
    (same : SameSymbols c c') (enough : k ≤ (symbolPositions c).length) :
    DecodesAlike k n c c' ↔ KeepsSymbols k c ∧ KeepsSymbols k c' := by
  have more (c : List ℕ) : (symbolPositions c).length ≤ (survivors c).length := by
    rw [symbolPositions_eq]
    exact List.length_filter_le _ _
  have within : (survivors c).length ≤ c.length := by
    have bound := List.length_filter_le (fun i => decide (c.getD i 0 ≤ 256)) (List.range c.length)
    simpa [survivors] using bound
  have fits : k ≤ c.length := (enough.trans (more c)).trans within
  have short' : c'.length ≤ 255 := same.length.symm ▸ short
  have fits' : k ≤ c'.length := same.length.symm ▸ fits
  have enough' : k ≤ (symbolPositions c').length := by rwa [same.positions]
  constructor
  · rintro ⟨message, decoded, decoded'⟩
    exact ⟨keepsSymbols_of_decoder short (enough.trans (more c)) fits decoded,
      keepsSymbols_of_decoder short' (enough'.trans (more c')) fits' decoded'⟩
  · rintro ⟨keeps, keeps'⟩
    obtain ⟨message, decoded⟩ := decoder_keeps n short enough fits keeps
    exact ⟨message, decoded, (same.decoder_eq n fits keeps keeps').trans decoded⟩

/-- A marker 256 behind the symbols that are kept is an erasure like any other. -/
theorem decodesAlike_iff_behind : DecodesAlike 1 3 [5, 290, 256] [5, 256, 300] := by
  have same : SameSymbols [5, 290, 256] [5, 256, 300] := ⟨rfl, by decide⟩
  exact (decodesAlike_iff (by decide) same (by decide)).mpr (by decide)

/-- A marker 256 in front of the symbols that are needed is divided, and looked up outside the
table. -/
theorem not_decodesAlike_first : SameSymbols [256, 5] [257, 5] ∧
    1 ≤ (symbolPositions [256, 5]).length ∧ decoder 1 2 [257, 5] = some [5] ∧
      decoder 1 2 [256, 5] = none ∧ ¬ DecodesAlike 1 2 [256, 5] [257, 5] := by
  have lost : decoder 1 2 [256, 5] = none := by decide
  refine ⟨⟨rfl, by decide⟩, by decide, by decide, lost, ?_⟩
  rintro ⟨message, decoded, -⟩
  rw [lost] at decoded
  cases decoded

end TinyTools.Ecc
