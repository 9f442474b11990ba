import TinyTools.Ecc.Decoder

/-!
# Elimination on the vector of vectors

Every loop of `gaussElimination` takes a grid through one step of elimination over the field. The
pivot search takes the largest unsigned integer of the column, which is nonzero as soon as any
entry is; regularity provides one. So a regular system of field symbols is solved, and no look-up
or access on the way leaves its table or vector.
-/

open Finset TinyTools.Lib

namespace TinyTools.Ecc

variable {n i : ℕ} {M : List (List ℕ)} {A : ℕ → ℕ → Symbol}

/-- The pivot search ends on a row whose entry is the largest at or below the diagonal. -/
theorem searchMax_run (grid : Grid n (n + 1) M A) (hi : i < n) :
    ∃ found, forUp (i + 1) n (searchMax M i) ((A i i).val, i) = some found ∧
      i ≤ found.2 ∧ found.2 < n ∧ ∀ k, i ≤ k → k < n → (A k i).val ≤ (A found.2 i).val := by
  have loop := forUp_rule (searchMax M i)
    (fun k state => i ≤ state.2 ∧ state.2 < n ∧ state.1 = (A state.2 i).val ∧
      ∀ r, i ≤ r → r < k → (A r i).val ≤ state.1)
    (show i + 1 ≤ n from hi) ((A i i).val, i)
    ⟨Nat.le_refl i, hi, rfl, fun r above below => by
      obtain rfl : r = i := by omega
      exact Nat.le_refl _⟩ ?step
  case step =>
    rintro k ⟨max, maxRow⟩ above below ⟨low, high, same, largest⟩
    simp only at low high same largest
    refine ⟨if (A k i).val > max then ((A k i).val, k) else (max, maxRow), ?_, ?_⟩
    · simp only [searchMax, grid.entry k below i (by omega), Option.bind_eq_bind,
        Option.bind_some]
    · by_cases greater : (A k i).val > max
      · simp only [greater, ↓reduceIte]
        refine ⟨by omega, below, trivial, fun r hr hk => ?_⟩
        rcases Nat.lt_succ_iff_lt_or_eq.mp hk with old | rfl
        · exact Nat.le_trans (largest r hr old) (Nat.le_of_lt greater)
        · exact Nat.le_refl _
      · simp only [greater, ↓reduceIte]
        refine ⟨low, high, same, fun r hr hk => ?_⟩
        rcases Nat.lt_succ_iff_lt_or_eq.mp hk with old | rfl
        · exact largest r hr old
        · exact Nat.le_of_not_gt greater
  obtain ⟨found, ran, low, high, max, largest⟩ := loop
  exact ⟨found, ran, low, high, fun k above below => max ▸ largest k above below⟩

/-- The swap loop exchanges two rows from the current column on; the columns before it are zero in
both rows already. -/
theorem swapEntry_run {r : ℕ} (grid : Grid n (n + 1) M A) (triangular : Triangular n i A)
    (hi : i < n) (low : i ≤ r) (hr : r < n) :
    ∃ next, forUp i (n + 1) (swapEntry i r) M = some next ∧
      Grid n (n + 1) next (exchange i r A) := by
  have loop := forUp_rule (swapEntry i r)
    (fun k M => Grid n (n + 1) M (fun a b => if i ≤ b ∧ b < k then exchange i r A a b else A a b))
    (show i ≤ n + 1 by omega) M
    (grid.congr fun a _ b _ => by rw [if_neg (by omega)]) ?step
  case step =>
    intro k M above below swapped
    have lower := swapped.entry r hr k below
    have upper := swapped.entry i hi k below
    beta_reduce at lower upper
    rw [if_neg (by omega)] at lower upper
    obtain ⟨first, wroteLower, gridLower⟩ := swapped.write hr below (A i k)
    obtain ⟨second, wroteUpper, gridUpper⟩ := gridLower.write hi below (A r k)
    refine ⟨second, ?_, gridUpper.congr fun a _ b _ => ?_⟩
    · simp only [swapEntry, lower, upper, wroteLower, wroteUpper, Option.bind_eq_bind,
        Option.bind_some]
    · unfold replaceAt exchange
      rw [Equiv.swap_apply_def]
      split_ifs <;> grind
  obtain ⟨next, ran, swapped⟩ := loop
  refine ⟨next, ran, swapped.congr fun a ha b hb => ?_⟩
  by_cases right : i ≤ b
  · rw [if_pos ⟨right, hb⟩]
  · rw [if_neg (by omega)]
    -- Both rows hold zeros in the columns already finished.
    have zeros (k : ℕ) (hk : i ≤ k) (inside : k < n) : A k b = 0 :=
      triangular.below b (by omega) k (by omega) inside
    unfold exchange
    rw [Equiv.swap_apply_def]
    split_ifs with first second
    · rw [first, zeros i (Nat.le_refl i) hi, zeros r low hr]
    · rw [second, zeros i (Nat.le_refl i) hi, zeros r low hr]
    · rfl

/-- One row is cleared as elimination over the field clears it. -/
theorem clearRow_step {k : ℕ} {B : ℕ → ℕ → Symbol} (grid : Grid n (n + 1) M B)
    (pivotRow : ∀ b < n + 1, B i b = A i b) (row : ∀ b < n + 1, B k b = A k b)
    (cleared : ∀ b < i, A i b = 0) (hi : i < n) (hk : k < n) (below : i < k)
    (pivot : A i i ≠ 0) :
    ∃ next, clearRow n i k M = some next ∧
      Grid n (n + 1) next (fun a b => if a = k then eliminate i A a b else B a b) := by
  let c := A k i * (A i i)⁻¹
  have loop := forUp_rule (clearEntry i k c.val)
    (fun j M => Grid n (n + 1) M
      (fun a b => if a = k ∧ i ≤ b ∧ b < j then eliminate i A a b else B a b))
    (show i ≤ n + 1 by omega) M
    (grid.congr fun a _ b _ => by rw [if_neg (by omega)]) ?step
  case step =>
    intro j M left right before
    have target := before.entry k hk j right
    have source := before.entry i hi j right
    beta_reduce at target source
    rw [if_neg (by omega), row j right] at target
    rw [if_neg (by omega), pivotRow j right] at source
    obtain ⟨next, wrote, after⟩ := before.write hk right (eliminate i A k j)
    refine ⟨next, ?_, after.congr fun a _ b _ => ?_⟩
    · unfold clearEntry
      split
      · rename_i same
        subst same
        have zero : eliminate i A k i = 0 := by
          simp only [eliminate, if_pos below, inv_mul_cancel_right₀ pivot, sub_self]
        rwa [zero] at wrote
      · have value : sub28 (A k j).val (c * A i j).val = (eliminate i A k j).val := by
          simp only [eliminate, if_pos below]
          rfl
        simp only [target, source, multiply28_val, value, wrote, Option.bind_eq_bind,
          Option.bind_some]
    · unfold replaceAt
      split_ifs <;> grind
  obtain ⟨next, ran, final⟩ := loop
  refine ⟨next, ?_, final.congr fun a _ b hb => ?_⟩
  · have entry := grid.entry k hk i (by omega)
    have diagonal := grid.entry i hi i (by omega)
    rw [row i (by omega)] at entry
    rw [pivotRow i (by omega)] at diagonal
    simp only [clearRow, entry, diagonal, inv28_val, multiply28_val, Option.bind_eq_bind,
      Option.bind_some]
    exact ran
  · by_cases this : a = k
    · subst this
      by_cases right : i ≤ b
      · rw [if_pos ⟨rfl, right, hb⟩, if_pos rfl]
      · rw [if_neg (by omega), if_pos rfl, row b hb]
        simp only [eliminate, if_pos below, cleared b (by omega), mul_zero, sub_zero]
    · rw [if_neg (fun h => this h.1), if_neg this]

/-- The clearing loop eliminates the column below the pivot. -/
theorem clearRow_run (grid : Grid n (n + 1) M A) (cleared : ∀ b < i, A i b = 0) (hi : i < n)
    (pivot : A i i ≠ 0) :
    ∃ next, forUp (i + 1) n (clearRow n i) M = some next ∧
      Grid n (n + 1) next (eliminate i A) := by
  have loop := forUp_rule (clearRow n i)
    (fun k M => Grid n (n + 1) M (fun a b => if a < k then eliminate i A a b else A a b))
    (show i + 1 ≤ n from hi) M ?first ?step
  case first =>
    apply grid.congr
    intro a _ b _
    by_cases above : a < i + 1
    · rw [if_pos above, eliminate, if_neg (by omega)]
    · rw [if_neg above]
  case step =>
    intro k M above below before
    obtain ⟨next, ran, after⟩ := clearRow_step (A := A) before
      (fun b _ => by rw [if_pos (by omega), eliminate, if_neg (lt_irrefl i)])
      (fun b _ => by simp only [lt_irrefl, ↓reduceIte]) cleared hi below above pivot
    exact ⟨next, ran, after.congr fun a _ b _ => by split_ifs <;> grind⟩
  obtain ⟨next, ran, final⟩ := loop
  exact ⟨next, ran, final.congr fun a ha b _ => if_pos ha⟩

/-- The first half of a pass of the forward loop: the pivot is searched and swapped up. -/
def pivotUp (n i : ℕ) (M : List (List ℕ)) : Option (List (List ℕ)) := do
  let max ← readAt M i i
  let found ← forUp (i + 1) n (searchMax M i) (max, i)
  forUp i (n + 1) (swapEntry i found.2) M

/-- The second half of a pass clears the column below the pivot. -/
theorem eliminateColumn_eq (n i : ℕ) (M : List (List ℕ)) :
    eliminateColumn n i M = (pivotUp n i M).bind (forUp (i + 1) n (clearRow n i)) := by
  simp only [eliminateColumn, pivotUp, Option.bind_eq_bind, Option.bind_assoc]

/-- The first half brings up a row with a nonzero entry. -/
theorem pivotUp_run (grid : Grid n (n + 1) M A) (triangular : Triangular n i A)
    (regular : Regular n A) (hi : i < n) :
    ∃ swapped r, pivotUp n i M = some swapped ∧ i ≤ r ∧ r < n ∧ A r i ≠ 0 ∧
      Grid n (n + 1) swapped (exchange i r A) := by
  obtain ⟨found, searched, low, high, largest⟩ := searchMax_run grid hi
  obtain ⟨r, rLow, rHigh, nonzero⟩ := regular.pivot_exists triangular hi
  have chosen : A found.2 i ≠ 0 := by
    intro zero
    have bound := largest r rLow rHigh
    rw [zero, Symbol.val_zero, Nat.le_zero] at bound
    exact nonzero (Symbol.ext bound)
  obtain ⟨swapped, ran, after⟩ := swapEntry_run grid triangular hi low high
  refine ⟨swapped, found.2, ?_, low, high, chosen, after⟩
  simp only [pivotUp, grid.entry i hi i (by omega), searched, ran, Option.bind_eq_bind,
    Option.bind_some]

/-- One pass of the forward loop pivots on a nonzero entry and finishes one more column. -/
theorem eliminateColumn_step (grid : Grid n (n + 1) M A) (triangular : Triangular n i A)
    (regular : Regular n A) (hi : i < n) :
    ∃ next r, eliminateColumn n i M = some next ∧ i ≤ r ∧ r < n ∧ A r i ≠ 0 ∧
      Grid n (n + 1) next (eliminate i (exchange i r A)) := by
  obtain ⟨swapped, r, ranSwap, low, high, chosen, gridSwap⟩ :=
    pivotUp_run grid triangular regular hi
  have pivotRow : exchange i r A i = A r := by simp [exchange]
  obtain ⟨next, ranClear, gridClear⟩ := clearRow_run gridSwap
    (fun b hb => by rw [pivotRow]; exact triangular.below b hb _ (by omega) high) hi
    (by rwa [pivotRow])
  refine ⟨next, r, ?_, low, high, chosen, gridClear⟩
  rw [eliminateColumn_eq, ranSwap, Option.bind_some, ranClear]

/-- Any number of passes of the forward loop finish as many columns of a regular system and keep
its solutions. -/
theorem eliminateColumn_passes (grid : Grid n (n + 1) M A) (regular : Regular n A) (hi : i ≤ n) :
    ∃ next B, forUp 0 i (eliminateColumn n) M = some next ∧ Grid n (n + 1) next B ∧
      Triangular n i B ∧ ∀ factor x, Vanishes n B factor x ↔ Vanishes n A factor x := by
  have loop := forUp_rule (eliminateColumn n)
    (fun i M => ∃ B, Grid n (n + 1) M B ∧ Triangular n i B ∧
      ∀ factor x, Vanishes n B factor x ↔ Vanishes n A factor x)
    (Nat.zero_le i) M
    ⟨A, grid,
      ⟨fun j hj => absurd hj (Nat.not_lt_zero j), fun j hj => absurd hj (Nat.not_lt_zero j)⟩,
      fun _ _ => Iff.rfl⟩ ?step
  case step =>
    rintro j M - below ⟨B, gridB, triangular, same⟩
    have inside : j < n := Nat.lt_of_lt_of_le below hi
    obtain ⟨next, r, ran, low, high, nonzero, after⟩ :=
      eliminateColumn_step gridB triangular (regular.transfer same) inside
    refine ⟨next, ran, _, after, triangular.step inside low high nonzero, fun factor x => ?_⟩
    rw [eliminate_vanishes inside, exchange_vanishes inside high, same]
  obtain ⟨next, ran, B, gridB, triangular, same⟩ := loop
  exact ⟨next, B, ran, gridB, triangular, same⟩

/-- The substitution loop subtracts the solved value from the constants above. -/
theorem substitute_run {B : ℕ → ℕ → Symbol} (grid : Grid n (n + 1) M B) (hi : i < n)
    (value : Symbol) :
    ∃ next, forDown i (substitute n i value.val) M = some next ∧ Grid n (n + 1) next
      (fun a b => if b = n ∧ a < i then B a n - value * B a i else B a b) := by
  have loop := forDown_rule (substitute n i value.val)
    (fun k M => Grid n (n + 1) M
      (fun a b => if b = n ∧ k ≤ a ∧ a < i then B a n - value * B a i else B a b)) i M
    (grid.congr fun a _ b _ => by rw [if_neg (by omega)]) ?step
  case step =>
    intro k M below before
    have constant := before.entry k (by omega) n (Nat.lt_succ_self n)
    have entry := before.entry k (by omega) i (by omega)
    beta_reduce at constant entry
    rw [if_neg (by omega)] at constant entry
    obtain ⟨next, wrote, after⟩ :=
      before.write (by omega : k < n) (Nat.lt_succ_self n) (B k n - value * B k i)
    refine ⟨next, ?_, after.congr fun a _ b _ => ?_⟩
    · have difference : sub28 (B k n).val (value * B k i).val =
          (B k n - value * B k i).val := rfl
      simp only [substitute, constant, entry, multiply28_val, difference, wrote,
        Option.bind_eq_bind, Option.bind_some]
    · unfold replaceAt
      split_ifs <;> grind
  obtain ⟨next, ran, final⟩ := loop
  exact ⟨next, ran, final.congr fun a _ b _ => by split_ifs <;> grind⟩

/-- What the backward loop keeps: the rows from `i` on are solved, and the constants of the rows
above have the solved part subtracted. -/
structure Substituted (n : ℕ) (A : ℕ → ℕ → Symbol) (i : ℕ)
    (state : List (List ℕ) × List ℕ) (x : ℕ → Symbol) (B : ℕ → ℕ → Symbol) : Prop where
  /-- The vector of vectors. -/
  grid : Grid n (n + 1) state.1 B
  /-- The coefficients are those of the triangle. -/
  coefficients : ∀ a < n, ∀ b < n, B a b = A a b
  /-- The constants still to be used. -/
  constants : ∀ a < i, B a n = A a n - ∑ j ∈ Ico i n, A a j * x j
  /-- The answer has its final length. -/
  length : state.2.length = n
  /-- The answer holds the solved values. -/
  known : ∀ j, i ≤ j → j < n → state.2[j]? = some (x j).val
  /-- The solved values satisfy the rows from `i` on. -/
  solved : SolvedFrom n A x i

/-- One pass of the backward loop solves one more row. -/
theorem solveRow_step {state : List (List ℕ) × List ℕ} {x : ℕ → Symbol} {B : ℕ → ℕ → Symbol}
    (triangular : Triangular n n A) (hi : i < n) (before : Substituted n A (i + 1) state x B) :
    ∃ next x' B', solveRow n i state = some next ∧ Substituted n A i next x' B' := by
  obtain ⟨M, answer⟩ := state
  obtain ⟨grid, coefficients, constants, length, known, solved⟩ := before
  simp only at grid length known
  let value := B i n * (A i i)⁻¹
  let x' : ℕ → Symbol := fun j => if j = i then value else x j
  have kept : ∀ a, ∑ j ∈ Ico (i + 1) n, A a j * x' j = ∑ j ∈ Ico (i + 1) n, A a j * x j := by
    intro a
    apply sum_congr rfl
    intro j hj
    have above := (mem_Ico.mp hj).1
    simp only [x', if_neg (show j ≠ i by omega)]
  have unknown : x' i = value := if_pos rfl
  have inside : i < answer.length := by omega
  obtain ⟨M', ranSub, grid'⟩ := substitute_run grid hi value
  refine ⟨(M', answer.set i value.val), x', _, ?_, grid', ?_, ?_, ?_, ?_, ?_⟩
  · have constant := grid.entry i hi n (Nat.lt_succ_self n)
    have diagonal := grid.entry i hi i (by omega)
    rw [coefficients i hi i hi] at diagonal
    simp only [solveRow, constant, diagonal, inv28_val, multiply28_val, Option.bind_eq_bind,
      Option.bind_some]
    rw [show B i n * (A i i)⁻¹ = value from rfl, store_inside inside]
    simp only [Option.bind_some, ranSub]
  · intro a ha b hb
    rw [if_neg (by omega), coefficients a ha b hb]
  · intro a ha
    rw [if_pos ⟨rfl, ha⟩, constants a (by omega), coefficients a (by omega) i hi,
      sum_eq_sum_Ico_succ_bot hi, kept, unknown]
    ring
  · rw [List.length_set, length]
  · intro j low high
    by_cases same : j = i
    · subst same
      rw [List.getElem?_set_self inside, unknown]
    · rw [List.getElem?_set_ne (fun h => same h.symm), known j (by omega) high]
      simp only [x', if_neg same]
  · refine SolvedFrom.step (fun k low high => ?_) (triangular.pivot i hi) ?_
    · rw [← solved k low high]
      apply sum_congr rfl
      intro j hj
      have above := (mem_Ico.mp hj).1
      simp only [x', if_neg (show j ≠ i by omega)]
    · rw [kept, unknown, ← constants i (Nat.lt_succ_self i)]

/-- A regular system of field symbols is solved, with every access and look-up inside its table. -/
theorem gaussElimination_solves (grid : Grid n (n + 1) M A) (regular : Regular n A) :
    ∃ x : ℕ → Symbol, gaussElimination M = some ((List.range n).map fun j => (x j).val) ∧
      Solves n A x := by
  obtain ⟨M', B, ranForward, gridB, triangular, same⟩ :=
    eliminateColumn_passes grid regular (Nat.le_refl n)
  have loop := forDown_rule (solveRow n)
    (fun i state => ∃ x C, Substituted n B i state x C) n (M', List.replicate n 0)
    ⟨fun _ => 0, B, gridB, fun _ _ _ _ => rfl, fun a _ => by simp, List.length_replicate,
      fun j low high => by omega, fun k low high => by omega⟩ ?step
  case step =>
    rintro i state hi ⟨x, C, before⟩
    obtain ⟨next, x', C', ran, after⟩ := solveRow_step triangular hi before
    exact ⟨next, ran, x', C', after⟩
  obtain ⟨state, ranBack, x, C, final⟩ := loop
  have known : Entries n state.2 x := fun j hj => final.known j (Nat.zero_le j) hj
  refine ⟨x, ?_, (same 1 x).mp (final.solved.solves triangular)⟩
  simp only [gaussElimination, grid.length, ranForward, ranBack, Option.bind_eq_bind,
    Option.bind_some, known.eq_map final.length]

/-! ## Invertible matrices -/

/-- A matrix of field symbols as the vector of vectors the solver is handed. -/
def vectors {rows columns : ℕ} (B : Matrix (Fin rows) (Fin columns) Symbol) : List (List ℕ) :=
  List.ofFn fun i => List.ofFn fun j => (B i j).val

/-- The vector of vectors of a matrix is a grid with its entries. -/
theorem vectors_grid (B : Matrix (Fin n) (Fin (n + 1)) Symbol) :
    Grid n (n + 1) (vectors B) (entries B) := by
  constructor
  · exact List.length_ofFn
  · intro i row j column
    rw [entries_inside B row column]
    simp only [readAt, vectors, List.getElem?_ofFn, row, column, ↓reduceDIte, Option.bind_eq_bind,
      Option.bind_some]

/-- A square system with an invertible matrix of symbols is solved: the answer is the one vector
that satisfies it, every pass of the forward loop swaps up a nonzero pivot, and the triangle the
backward loop divides by has a nonzero diagonal. No look-up on the way leaves its table. -/
theorem gaussElimination_invertible (n : ℕ) (B : Matrix (Fin n) (Fin (n + 1)) Symbol)
    (invertible : IsUnit (B.submatrix id Fin.castSucc)) :
    (∃ x : Fin n → Symbol,
      gaussElimination (vectors B) = some (List.ofFn fun i => (x i).val) ∧
      ∀ y, (B.submatrix id Fin.castSucc).mulVec y = (fun i => B i (Fin.last n)) ↔ y = x) ∧
    (∀ i < n, ∃ M swapped pivot, forUp 0 i (eliminateColumn n) (vectors B) = some M ∧
      pivotUp n i M = some swapped ∧ readAt swapped i i = some pivot ∧ pivot ≠ 0) ∧
    ∃ M, forUp 0 n (eliminateColumn n) (vectors B) = some M ∧
      ∀ i < n, ∃ pivot, readAt M i i = some pivot ∧ pivot ≠ 0 := by
  have grid := vectors_grid B
  have regular := entries_regular invertible
  have shown {x : Symbol} (nonzero : x ≠ 0) : x.val ≠ 0 := fun zero => nonzero (Symbol.ext zero)
  constructor
  · obtain ⟨x, ran, solved⟩ := gaussElimination_solves grid regular
    refine ⟨fun i => x i, ?_, fun y => ?_⟩
    · rw [ran]
      congr 1
      apply List.ext_getElem
      · simp
      · intro j left right
        simp
    · have product : (B.submatrix id Fin.castSucc).mulVec (fun i => x i) =
          fun i => B i (Fin.last n) := by
        simpa only [one_mul] using (entries_vanishes B 1 x).mp solved
      constructor
      · intro other
        apply Matrix.mulVec_injective_of_isUnit invertible
        rw [other, product]
      · intro same
        rw [same, product]
  constructor
  · intro i hi
    obtain ⟨M, C, ran, gridC, triangular, same⟩ :=
      eliminateColumn_passes grid regular (Nat.le_of_lt hi)
    obtain ⟨swapped, r, ranSwap, -, -, nonzero, after⟩ :=
      pivotUp_run gridC triangular (regular.transfer same) hi
    have pivot : exchange i r C i i = C r i := by simp [exchange]
    refine ⟨M, swapped, (C r i).val, ran, ranSwap, ?_, shown nonzero⟩
    rw [after.entry i hi i (by omega), pivot]
  · obtain ⟨M, C, ran, gridC, triangular, -⟩ :=
      eliminateColumn_passes grid regular (Nat.le_refl n)
    exact ⟨M, ran, fun i hi => ⟨(C i i).val, gridC.entry i hi i (by omega),
      shown (triangular.pivot i hi)⟩⟩

/-- Two equations whose rows have to be swapped are solved. -/
theorem gaussElimination_invertible_swap :
    ∃ x : Fin 2 → Symbol, gaussElimination [[0, 1, 7], [3, 0, 9]] =
        some (List.ofFn fun i => (x i).val) ∧
      ∀ y, (!![0, 1; Symbol.generator, 0] : Matrix (Fin 2) (Fin 2) Symbol).mulVec y =
        ![⟨7, by decide⟩, ⟨9, by decide⟩] ↔ y = x := by
  have left : (!![0, 1, ⟨7, by decide⟩; Symbol.generator, 0, ⟨9, by decide⟩] :
      Matrix (Fin 2) (Fin 3) Symbol).submatrix id Fin.castSucc =
        !![0, 1; Symbol.generator, 0] := by
    decide
  have invertible : IsUnit (!![0, 1; Symbol.generator, 0] : Matrix (Fin 2) (Fin 2) Symbol) := by
    apply IsUnit.of_mul_eq_one !![0, Symbol.generator⁻¹; 1, 0]
    decide
  have solved := (gaussElimination_invertible 2 _ (left ▸ invertible)).1
  have constants : (fun i => (!![0, 1, ⟨7, by decide⟩; Symbol.generator, 0, ⟨9, by decide⟩] :
      Matrix (Fin 2) (Fin 3) Symbol) i (Fin.last 2)) = ![⟨7, by decide⟩, ⟨9, by decide⟩] := by
    decide
  rw [left, constants] at solved
  exact solved

end TinyTools.Ecc
