import Mathlib.Algebra.BigOperators.Group.Finset.Basic
import Mathlib.Algebra.BigOperators.Intervals
import TinyTools.Ecc.GaloisField
import TinyTools.Lib.Loop

/-!
# The GF(2^8) encoder

`dfs_encoder` evaluates the message polynomial at successive powers of three. Its loops read and
write vectors of unsigned integers through checked accesses; on symbols no access and no table
look-up fails, and entry `i` of the answer is the polynomial's value at the `i`-th power.
-/

open Finset TinyTools.Lib

namespace TinyTools.Ecc

/-- `p[i] = m[i]`. -/
def copySymbol (m : List ℕ) (i : ℕ) (p : List ℕ) : Option (List ℕ) := do
  let symbol ← m[i]?
  store p i symbol

/-- `v[j] = multiply28(v[j-1], base)`. -/
def nextPower (base j : ℕ) (v : List ℕ) : Option (List ℕ) := do
  let previous ← v[j - 1]?
  let power ← multiply28 previous base
  store v j power

/-- `sum = add28(sum, multiply28(v[j], p[j]))`. -/
def addProduct (v p : List ℕ) (j sum : ℕ) : Option ℕ := do
  let vj ← v[j]?
  let pj ← p[j]?
  let temp ← multiply28 vj pj
  some (add28 sum temp)

/-- One pass of the outer loop over the state `base`, `v` and `ans`. -/
def encodeEntry (k : ℕ) (p : List ℕ) (i : ℕ) (state : ℕ × List ℕ × List ℕ) :
    Option (ℕ × List ℕ × List ℕ) := do
  let (base, v, ans) := state
  let v ← forUp 1 k (nextPower base) v
  let sum ← forUp 0 k (addProduct v p) 0
  let ans ← store ans i sum
  let base ← multiply28 base 3
  some (base, v, ans)

/-- `dfs_encoder`: a message longer than `n` overruns the column vector `p`. -/
def dfsEncoder (n : ℕ) (m : List ℕ) : Option (List ℕ) := do
  let k := m.length
  let p ← forUp 0 k (copySymbol m) (List.replicate n 0)
  let state ← forUp 0 n (encodeEntry k p) (1, List.replicate n 1, List.replicate n 0)
  some state.2.2

/-- The value at the `i`-th power of the generator of the polynomial with these coefficients. -/
def evaluate (k : ℕ) (coefficient : ℕ → Symbol) (i : ℕ) : Symbol :=
  ∑ j ∈ range k, (Symbol.generator ^ i) ^ j * coefficient j

/-- The first entries of a vector are these symbols. -/
abbrev Entries (count : ℕ) (v : List ℕ) (value : ℕ → Symbol) : Prop :=
  Filled count v fun j => (value j).val

/-- The column vector starts with the message. -/
theorem copySymbol_run (n : ℕ) (message : List Symbol) (fits : message.length ≤ n) :
    ∃ p, forUp 0 message.length (copySymbol (message.map Symbol.val)) (List.replicate n 0) =
        some p ∧
      Entries message.length p (fun j => message.getD j 0) := by
  have loop := forUp_rule (copySymbol (message.map Symbol.val))
    (fun i p => p.length = n ∧ Entries i p (fun j => message.getD j 0)) (Nat.zero_le message.length)
    (List.replicate n 0)
    ⟨List.length_replicate, Filled.zero _ _⟩ ?step
  case step =>
    rintro i p - high ⟨same, known⟩
    obtain ⟨next, stored, length, extended⟩ := known.store_next (by omega)
    refine ⟨next, ?_, length.trans same, extended⟩
    have entry : (message.map Symbol.val)[i]? = some (message.getD i 0).val := by
      simp [List.getElem?_eq_getElem high, List.getD_eq_getElem?_getD]
    simp only [copySymbol, entry, Option.bind_eq_bind, Option.bind_some, stored]
  obtain ⟨p, ran, -, known⟩ := loop
  exact ⟨p, ran, known⟩

/-- The first inner loop fills a row with successive powers of the base. -/
theorem nextPower_run (k : ℕ) (base : Symbol) (v : List ℕ) (room : k ≤ v.length)
    (first : 0 < k → v[0]? = some 1) :
    ∃ row, forUp 1 k (nextPower base.val) v = some row ∧ row.length = v.length ∧
      row[0]? = v[0]? ∧ Entries k row (base ^ ·) := by
  rcases Nat.eq_zero_or_pos k with rfl | positive
  · exact ⟨v, rfl, rfl, rfl, Filled.zero _ _⟩
  · have start : Entries 1 v (base ^ ·) := by
      intro j below
      obtain rfl : j = 0 := by omega
      simpa using first positive
    apply forUp_rule (nextPower base.val)
      (fun j row => row.length = v.length ∧ row[0]? = v[0]? ∧ Entries j row (base ^ ·))
      positive v ⟨rfl, rfl, start⟩
    rintro j row low high ⟨same, head, known⟩
    obtain ⟨next, stored, length, extended⟩ := known.store_next (by omega)
    have power : base ^ (j - 1) * base = base ^ j := by
      rw [← pow_succ, Nat.sub_add_cancel low]
    refine ⟨next, ?_, length.trans same, ?_, extended⟩
    · simp only [nextPower, known (j - 1) (by omega), multiply28_val, power, Option.bind_eq_bind,
        Option.bind_some, stored]
    · rw [extended 0 (by omega), ← head, known 0 (by omega)]

/-- The second inner loop adds up the products of the row and the message. -/
theorem addProduct_run (k : ℕ) (v p : List ℕ) (row column : ℕ → Symbol)
    (rowKnown : Entries k v row) (columnKnown : Entries k p column) :
    forUp 0 k (addProduct v p) 0 = some (∑ j ∈ range k, row j * column j).val := by
  have loop := forUp_rule (addProduct v p)
    (fun j sum => sum = (∑ j ∈ range j, row j * column j).val) (Nat.zero_le k) 0 (by simp) ?step
  case step =>
    rintro j sum - high rfl
    refine ⟨_, ?_, rfl⟩
    simp only [addProduct, rowKnown j high, columnKnown j high, multiply28_val,
      Option.bind_eq_bind, Option.bind_some, add28, sum_range_succ, Symbol.val_add]
  obtain ⟨last, ran, final⟩ := loop
  rw [ran, final]

/-- What the outer loop keeps: the base is the next power of three, `v` still starts with one, and
the entries stored so far are values of the message polynomial. -/
structure Encoding (n k : ℕ) (coefficient : ℕ → Symbol) (i : ℕ)
    (state : ℕ × List ℕ × List ℕ) : Prop where
  /-- The base of the entry to come. -/
  base : state.1 = (Symbol.generator ^ i).val
  /-- The row of powers keeps its length. -/
  rowLength : state.2.1.length = n
  /-- The row of powers keeps its first entry. -/
  rowFirst : 0 < n → state.2.1[0]? = some 1
  /-- The answer keeps its length. -/
  length : state.2.2.length = n
  /-- The entries stored so far. -/
  known : Entries i state.2.2 (evaluate k coefficient)

/-- One pass of the outer loop stores one more value of the message polynomial. -/
theorem encodeEntry_step {n k i : ℕ} {p : List ℕ} {coefficient : ℕ → Symbol}
    {state : ℕ × List ℕ × List ℕ} (column : Entries k p coefficient) (fits : k ≤ n) (inside : i < n)
    (before : Encoding n k coefficient i state) :
    ∃ next, encodeEntry k p i state = some next ∧ Encoding n k coefficient (i + 1) next := by
  obtain ⟨base, v, ans⟩ := state
  obtain ⟨rfl, vLength, vFirst, ansLength, known⟩ := before
  simp only at vLength vFirst ansLength known
  obtain ⟨row, filled, rowLength, rowFirst, rowKnown⟩ :=
    nextPower_run k (Symbol.generator ^ i) v (by omega) (fun _ => vFirst (by omega))
  have summed := addProduct_run k row p _ coefficient rowKnown column
  obtain ⟨next, stored, nextLength, extended⟩ := known.store_next (by omega)
  have moved : multiply28 (Symbol.generator ^ i).val 3 = some (Symbol.generator ^ (i + 1)).val :=
    multiply28_val (Symbol.generator ^ i) Symbol.generator
  refine ⟨((Symbol.generator ^ (i + 1)).val, row, next), ?_,
    ⟨rfl, rowLength.trans vLength, fun positive => rowFirst.trans (vFirst positive),
      nextLength.trans ansLength, extended⟩⟩
  simp only [evaluate] at stored
  simp only [encodeEntry, filled, summed, stored, moved, Option.bind_eq_bind, Option.bind_some]

/-- On symbols the encoder succeeds and answers the values of the message polynomial. -/
theorem dfsEncoder_symbols (n : ℕ) (message : List Symbol) (fits : message.length ≤ n) :
    dfsEncoder n (message.map Symbol.val) = some ((List.range n).map fun i =>
      (evaluate message.length (fun j => message.getD j 0) i).val) := by
  obtain ⟨p, copied, column⟩ := copySymbol_run n message fits
  obtain ⟨state, ran, final⟩ := forUp_rule (encodeEntry message.length p)
    (Encoding n message.length (fun j => message.getD j 0)) (Nat.zero_le n)
    (1, List.replicate n 1, List.replicate n 0)
    ⟨rfl, List.length_replicate, fun positive => by simp [positive], List.length_replicate,
      Filled.zero _ _⟩
    (fun i state _ inside before => encodeEntry_step column fits inside before)
  simp only [dfsEncoder, List.length_map, copied, ran, Option.bind_eq_bind, Option.bind_some,
    final.known.eq_map final.length]

end TinyTools.Ecc
