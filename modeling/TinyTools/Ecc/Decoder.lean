import TinyTools.Ecc.Encoder
import TinyTools.Lib.Elimination

/-!
# The erasure decoder

`decoder` rebuilds the powers the encoder used, keeps the rows of the first `k` entries that are not
marked missing, and solves for the message with `gaussElimination`. The elimination works in place
on a vector of vectors of unsigned integers. A grid relates that vector to a system over the field;
each loop of the source is shown to take the grid through one step of the elimination over the
field, and every read, write and table look-up on the way succeeds.
-/

open Finset TinyTools.Lib

namespace TinyTools.Ecc

/-- `M[i][j]`. -/
def readAt (M : List (List ℕ)) (i j : ℕ) : Option ℕ := do
  let row ← M[i]?
  row[j]?

/-- `M[i][j] = x`. -/
def writeAt (M : List (List ℕ)) (i j x : ℕ) : Option (List (List ℕ)) := do
  let row ← M[i]?
  let row ← store row j x
  store M i row

/-! ## The source -/

/-- `if(M[k][i] > max) { max = M[k][i]; maxRow = k; }` on the state `max`, `maxRow`. -/
def searchMax (M : List (List ℕ)) (i k : ℕ) (state : ℕ × ℕ) : Option (ℕ × ℕ) := do
  let entry ← readAt M k i
  some (if entry > state.1 then (entry, k) else state)

/-- The swap of one column of rows `maxRow` and `i`. -/
def swapEntry (i maxRow k : ℕ) (M : List (List ℕ)) : Option (List (List ℕ)) := do
  let tmp ← readAt M maxRow k
  let entry ← readAt M i k
  let M ← writeAt M maxRow k entry
  writeAt M i k tmp

/-- One column of the elimination of row `k` with factor `c`. -/
def clearEntry (i k c j : ℕ) (M : List (List ℕ)) : Option (List (List ℕ)) :=
  if i = j then writeAt M k j 0
  else do
    let entry ← readAt M k j
    let pivotEntry ← readAt M i j
    let multiple ← multiply28 c pivotEntry
    writeAt M k j (sub28 entry multiple)

/-- The elimination of row `k` by row `i`. -/
def clearRow (n i k : ℕ) (M : List (List ℕ)) : Option (List (List ℕ)) := do
  let entry ← readAt M k i
  let pivot ← readAt M i i
  let inverted ← inv28 pivot
  let c ← multiply28 entry inverted
  forUp i (n + 1) (clearEntry i k c) M

/-- One pass of the forward loop: search the pivot, swap it up, clear the column below. -/
def eliminateColumn (n i : ℕ) (M : List (List ℕ)) : Option (List (List ℕ)) := do
  let max ← readAt M i i
  let found ← forUp (i + 1) n (searchMax M i) (max, i)
  let M ← forUp i (n + 1) (swapEntry i found.2) M
  forUp (i + 1) n (clearRow n i) M

/-- `M[k][n] = sub28(M[k][n], multiply28(x[i], M[k][i]))`. -/
def substitute (n i xi k : ℕ) (M : List (List ℕ)) : Option (List (List ℕ)) := do
  let constant ← readAt M k n
  let entry ← readAt M k i
  let multiple ← multiply28 xi entry
  writeAt M k n (sub28 constant multiple)

/-- One pass of the backward loop over the state `M` and `x`. -/
def solveRow (n i : ℕ) (state : List (List ℕ) × List ℕ) : Option (List (List ℕ) × List ℕ) := do
  let (M, x) := state
  let constant ← readAt M i n
  let pivot ← readAt M i i
  let inverted ← inv28 pivot
  let xi ← multiply28 constant inverted
  let x ← store x i xi
  let M ← forDown i (substitute n i xi) M
  some (M, x)

/-- `gaussElimination`. -/
def gaussElimination (M : List (List ℕ)) : Option (List ℕ) := do
  let n := M.length
  let M ← forUp 0 n (eliminateColumn n) M
  let state ← forDown n (solveRow n) (M, List.replicate n 0)
  some state.2

/-- `matrix[i][j] = multiply28(matrix[i][j-1], base)`. -/
def nextEntry (base i j : ℕ) (matrix : List (List ℕ)) : Option (List (List ℕ)) := do
  let previous ← readAt matrix i (j - 1)
  let power ← multiply28 previous base
  writeAt matrix i j power

/-- One row of the original matrix, over the state `base`, `matrix`. -/
def buildRow (size i : ℕ) (state : ℕ × List (List ℕ)) : Option (ℕ × List (List ℕ)) := do
  let (base, matrix) := state
  let matrix ← forUp 1 size (nextEntry base i) matrix
  let base ← multiply28 base 3
  some (base, matrix)

/-- `v.push_back(matrix[i][h])`. -/
def pushEntry (matrix : List (List ℕ)) (i h : ℕ) (v : List ℕ) : Option (List ℕ) := do
  let entry ← readAt matrix i h
  some (v ++ [entry])

/-- One pass of the selection over the state `lineCount`, `newMatrix`. The source leaves the loop
once `lineCount` equals `k`; from then on nothing changes, so the remaining passes do nothing. -/
def selectRow (k : ℕ) (matrix : List (List ℕ)) (c : List ℕ) (i : ℕ)
    (state : ℕ × List (List ℕ)) : Option (ℕ × List (List ℕ)) :=
  if state.1 = k then some state
  else do
    let ci ← getElem? c i
    if ci > 256 then some state
    else do
      let v ← forUp 0 k (pushEntry matrix i) []
      some (state.1 + 1, state.2 ++ [v ++ [ci]])

/-- `v.resize(k)`: cut the vector, or fill it up with zeros. -/
def resize (v : List ℕ) (k : ℕ) : List ℕ := v.take k ++ List.replicate (k - v.length) 0

/-- `decoder`; the source does not read its parameter `n`. -/
def decoder (k _n : ℕ) (c : List ℕ) : Option (List ℕ) := do
  let size := c.length
  let built ← forUp 0 size (buildRow size) (1, List.replicate size (List.replicate size 1))
  let selected ← forUp 0 size (selectRow k built.2 c) (0, [])
  let ans ← gaussElimination selected.2
  some (resize ans k)

/-! ## Grids -/

/-- The vector of vectors holds these field elements in its first columns. -/
structure Grid (rows columns : ℕ) (M : List (List ℕ)) (A : ℕ → ℕ → Symbol) : Prop where
  /-- The number of rows. -/
  length : M.length = rows
  /-- Every entry is present. -/
  entry : ∀ i < rows, ∀ j < columns, readAt M i j = some (A i j).val

/-- A grid only depends on the entries inside it. -/
theorem Grid.congr {rows columns : ℕ} {M : List (List ℕ)} {A B : ℕ → ℕ → Symbol}
    (grid : Grid rows columns M A) (same : ∀ i < rows, ∀ j < columns, A i j = B i j) :
    Grid rows columns M B :=
  ⟨grid.length, fun i hi j hj => by rw [grid.entry i hi j hj, same i hi j hj]⟩

/-- Replace one entry of a system. -/
def replaceAt (A : ℕ → ℕ → Symbol) (i j : ℕ) (value : Symbol) : ℕ → ℕ → Symbol :=
  fun a b => if a = i ∧ b = j then value else A a b

/-- A write inside a grid succeeds and replaces one entry. -/
theorem Grid.write {rows columns i j : ℕ} {M : List (List ℕ)} {A : ℕ → ℕ → Symbol}
    (grid : Grid rows columns M A) (hi : i < rows) (hj : j < columns) (value : Symbol) :
    ∃ next, writeAt M i j value.val = some next ∧
      Grid rows columns next (replaceAt A i j value) := by
  have present := grid.entry i hi j hj
  obtain ⟨row, hrow, hentry⟩ := Option.bind_eq_some_iff.mp present
  have inRow : j < row.length := (List.getElem?_eq_some_iff.mp hentry).1
  have inside : i < M.length := (List.getElem?_eq_some_iff.mp hrow).1
  refine ⟨M.set i (row.set j value.val), ?_, ?_, ?_⟩
  · simp only [writeAt, hrow, store_inside inRow, store_inside inside, Option.bind_eq_bind,
      Option.bind_some]
  · rw [List.length_set, grid.length]
  · intro a ha b hb
    have before := grid.entry a ha b hb
    unfold readAt replaceAt at *
    by_cases sameRow : a = i
    · subst sameRow
      rw [List.getElem?_set_self inside]
      simp only [hrow, Option.bind_eq_bind, Option.bind_some] at before ⊢
      by_cases sameColumn : b = j
      · subst sameColumn
        simp only [and_self, ↓reduceIte, List.getElem?_set_self inRow]
      · simp only [sameColumn, and_false, ↓reduceIte]
        rw [List.getElem?_set_ne (fun h => sameColumn h.symm), before]
    · rw [List.getElem?_set_ne (fun h => sameRow h.symm)]
      simp only [sameRow, false_and, ↓reduceIte]
      exact before

end TinyTools.Ecc
