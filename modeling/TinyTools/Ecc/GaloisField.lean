import Mathlib.Algebra.Field.Defs
import Mathlib.Data.Nat.Bitwise
import Mathlib.Tactic.Ring

/-!
# The field GF(2^8) behind the look-up tables

`galoisField.cpp` multiplies by adding logarithms and inverts by look-up. The tables are data, so
what they describe is established here once: exponentials and logarithms are inverse, each
exponential is three times the one before, and tripling distributes over exclusive or. Associativity
and distributivity follow from these by reasoning about exponents; no law is checked on all triples.
-/

namespace TinyTools.Ecc

/-- `ExpTable`. -/
def expTable : List (List ℕ) :=
  [[1, 3, 5, 15, 17, 51, 85, 255, 26, 46, 114, 150, 161, 248, 19, 53],
   [95, 225, 56, 72, 216, 115, 149, 164, 247, 2, 6, 10, 30, 34, 102, 170],
   [229, 52, 92, 228, 55, 89, 235, 38, 106, 190, 217, 112, 144, 171, 230, 49],
   [83, 245, 4, 12, 20, 60, 68, 204, 79, 209, 104, 184, 211, 110, 178, 205],
   [76, 212, 103, 169, 224, 59, 77, 215, 98, 166, 241, 8, 24, 40, 120, 136],
   [131, 158, 185, 208, 107, 189, 220, 127, 129, 152, 179, 206, 73, 219, 118, 154],
   [181, 196, 87, 249, 16, 48, 80, 240, 11, 29, 39, 105, 187, 214, 97, 163],
   [254, 25, 43, 125, 135, 146, 173, 236, 47, 113, 147, 174, 233, 32, 96, 160],
   [251, 22, 58, 78, 210, 109, 183, 194, 93, 231, 50, 86, 250, 21, 63, 65],
   [195, 94, 226, 61, 71, 201, 64, 192, 91, 237, 44, 116, 156, 191, 218, 117],
   [159, 186, 213, 100, 172, 239, 42, 126, 130, 157, 188, 223, 122, 142, 137, 128],
   [155, 182, 193, 88, 232, 35, 101, 175, 234, 37, 111, 177, 200, 67, 197, 84],
   [252, 31, 33, 99, 165, 244, 7, 9, 27, 45, 119, 153, 176, 203, 70, 202],
   [69, 207, 74, 222, 121, 139, 134, 145, 168, 227, 62, 66, 198, 81, 243, 14],
   [18, 54, 90, 238, 41, 123, 141, 140, 143, 138, 133, 148, 167, 242, 13, 23],
   [57, 75, 221, 124, 132, 151, 162, 253, 28, 36, 108, 180, 199, 82, 246, 1]]

/-- `LogTable`. -/
def logTable : List (List ℕ) :=
  [[0, 0, 25, 1, 50, 2, 26, 198, 75, 199, 27, 104, 51, 238, 223, 3],
   [100, 4, 224, 14, 52, 141, 129, 239, 76, 113, 8, 200, 248, 105, 28, 193],
   [125, 194, 29, 181, 249, 185, 39, 106, 77, 228, 166, 114, 154, 201, 9, 120],
   [101, 47, 138, 5, 33, 15, 225, 36, 18, 240, 130, 69, 53, 147, 218, 142],
   [150, 143, 219, 189, 54, 208, 206, 148, 19, 92, 210, 241, 64, 70, 131, 56],
   [102, 221, 253, 48, 191, 6, 139, 98, 179, 37, 226, 152, 34, 136, 145, 16],
   [126, 110, 72, 195, 163, 182, 30, 66, 58, 107, 40, 84, 250, 133, 61, 186],
   [43, 121, 10, 21, 155, 159, 94, 202, 78, 212, 172, 229, 243, 115, 167, 87],
   [175, 88, 168, 80, 244, 234, 214, 116, 79, 174, 233, 213, 231, 230, 173, 232],
   [44, 215, 117, 122, 235, 22, 11, 245, 89, 203, 95, 176, 156, 169, 81, 160],
   [127, 12, 246, 111, 23, 196, 73, 236, 216, 67, 31, 45, 164, 118, 123, 183],
   [204, 187, 62, 90, 251, 96, 177, 134, 59, 82, 161, 108, 170, 85, 41, 157],
   [151, 178, 135, 144, 97, 190, 220, 252, 188, 149, 207, 205, 55, 63, 91, 209],
   [83, 57, 132, 60, 65, 162, 109, 71, 20, 42, 158, 93, 86, 242, 211, 171],
   [68, 17, 146, 217, 35, 32, 46, 137, 180, 124, 184, 38, 119, 153, 227, 165],
   [103, 74, 237, 222, 197, 49, 254, 24, 13, 99, 140, 128, 192, 247, 112, 7]]

/-- `InvTable`. -/
def invTable : List (List ℕ) :=
  [[0, 1, 141, 246, 203, 82, 123, 209, 232, 79, 41, 192, 176, 225, 229, 199],
   [116, 180, 170, 75, 153, 43, 96, 95, 88, 63, 253, 204, 255, 64, 238, 178],
   [58, 110, 90, 241, 85, 77, 168, 201, 193, 10, 152, 21, 48, 68, 162, 194],
   [44, 69, 146, 108, 243, 57, 102, 66, 242, 53, 32, 111, 119, 187, 89, 25],
   [29, 254, 55, 103, 45, 49, 245, 105, 167, 100, 171, 19, 84, 37, 233, 9],
   [237, 92, 5, 202, 76, 36, 135, 191, 24, 62, 34, 240, 81, 236, 97, 23],
   [22, 94, 175, 211, 73, 166, 54, 67, 244, 71, 145, 223, 51, 147, 33, 59],
   [121, 183, 151, 133, 16, 181, 186, 60, 182, 112, 208, 6, 161, 250, 129, 130],
   [131, 126, 127, 128, 150, 115, 190, 86, 155, 158, 149, 217, 247, 2, 185, 164],
   [222, 106, 50, 109, 216, 138, 132, 114, 42, 20, 159, 136, 249, 220, 137, 154],
   [251, 124, 46, 195, 143, 184, 101, 72, 38, 200, 18, 74, 206, 231, 210, 98],
   [12, 224, 31, 239, 17, 117, 120, 113, 165, 142, 118, 61, 189, 188, 134, 87],
   [11, 40, 47, 163, 218, 212, 228, 15, 169, 39, 83, 4, 27, 252, 172, 230],
   [122, 7, 174, 99, 197, 219, 226, 234, 148, 139, 196, 213, 157, 248, 144, 107],
   [177, 13, 214, 235, 198, 14, 207, 173, 8, 78, 215, 227, 93, 80, 30, 179],
   [91, 35, 56, 52, 104, 70, 3, 140, 221, 156, 125, 160, 205, 26, 65, 28]]

/-- `table[x/16][x%16]`; an index outside the table fails. -/
def lookup (table : List (List ℕ)) (x : ℕ) : Option ℕ := do
  let row ← table[x / 16]?
  row[x % 16]?

/-- `add28`. -/
def add28 (x y : ℕ) : ℕ := x ^^^ y

/-- `sub28`. -/
def sub28 (x y : ℕ) : ℕ := x ^^^ y

/-- `multiply28`: a zero operand is answered before any table is read. -/
def multiply28 (x y : ℕ) : Option ℕ :=
  if x = 0 ∨ y = 0 then some 0
  else do
    let logX ← lookup logTable x
    let logY ← lookup logTable y
    let t := logX + logY
    let t := if t > 255 then t - 255 else t
    lookup expTable t

/-- `inv28`. -/
def inv28 (x : ℕ) : Option ℕ := lookup invTable x

/-! ## What the tables say -/

/-- The exponential read from its table. -/
def exp (i : ℕ) : ℕ := (lookup expTable i).getD 0

/-- The logarithm read from its table. -/
def log (x : ℕ) : ℕ := (lookup logTable x).getD 0

/-- Twice a symbol, reduced by the field polynomial `0x11B` when bit 7 is shifted out. -/
def double (x : ℕ) : ℕ := (2 * x) ^^^ (if x.testBit 7 then 0x11B else 0)

/-- Three times a symbol. -/
def triple (x : ℕ) : ℕ := double x ^^^ x

/-- What the two tables say of each entry, read off them once. -/
theorem tables_agree : ∀ x < 256, lookup expTable x = some (exp x) ∧
    lookup logTable x = some (log x) ∧ (0 < exp x ∧ exp x < 256) ∧ log x < 255 ∧
      (0 < x → exp (log x) = x) ∧
        (x < 255 → log (exp x) = x ∧ exp (x + 1) = triple (exp x)) := by
  decide +kernel

/-- The exponential table has 256 entries. -/
theorem lookup_exp (i : ℕ) (inside : i < 256) : lookup expTable i = some (exp i) :=
  (tables_agree i inside).1

/-- The logarithm table has 256 entries. -/
theorem lookup_log (x : ℕ) (inside : x < 256) : lookup logTable x = some (log x) :=
  (tables_agree x inside).2.1

/-- Every exponential is a nonzero symbol. -/
theorem exp_range (i : ℕ) (inside : i < 256) : 0 < exp i ∧ exp i < 256 :=
  (tables_agree i inside).2.2.1

/-- Logarithms are exponents below the group order. -/
theorem log_lt (x : ℕ) (inside : x < 256) : log x < 255 :=
  (tables_agree x inside).2.2.2.1

/-- The exponential of a logarithm is the symbol. -/
theorem exp_log (x : ℕ) (inside : x < 256) (nonzero : 0 < x) : exp (log x) = x :=
  (tables_agree x inside).2.2.2.2.1 nonzero

/-- Below the group order exponents and exponentials determine each other, step by step. -/
theorem exp_steps (i : ℕ) (inside : i < 255) :
    log (exp i) = i ∧ exp (i + 1) = triple (exp i) := by
  have entry : i < 256 := by omega
  exact (tables_agree i entry).2.2.2.2.2 inside

/-- The logarithm of an exponential is the exponent. -/
theorem log_exp (i : ℕ) (inside : i < 255) : log (exp i) = i := (exp_steps i inside).1

/-- Consecutive exponentials differ by the factor three, the generator. -/
theorem exp_succ (i : ℕ) (inside : i < 255) : exp (i + 1) = triple (exp i) :=
  (exp_steps i inside).2

/-- Exponents repeat after the group order. -/
theorem exp_mod_succ (i : ℕ) : exp ((i + 1) % 255) = triple (exp (i % 255)) := by
  rw [← exp_succ _ (Nat.mod_lt _ (by decide))]
  rcases Nat.lt_or_ge (i % 255 + 1) 255 with below | reached
  · rw [show (i + 1) % 255 = i % 255 + 1 by omega]
  · rw [show (i + 1) % 255 = 0 by omega, show i % 255 + 1 = 255 by omega]
    decide

/-- Doubling distributes over exclusive or: the reduction depends on one bit. -/
theorem double_xor (x y : ℕ) : double (x ^^^ y) = double x ^^^ double y := by
  have shifted : 2 * (x ^^^ y) = (2 * x) ^^^ (2 * y) := by
    simpa [Nat.shiftLeft_eq, Nat.mul_comm] using
      Nat.shiftLeft_xor_distrib (a := x) (b := y) (i := 1)
  have reduction : (if (x ^^^ y).testBit 7 then 0x11B else 0) =
      (if x.testBit 7 then 0x11B else 0) ^^^ (if y.testBit 7 then 0x11B else 0) := by
    rw [Nat.testBit_xor]
    cases x.testBit 7 <;> cases y.testBit 7 <;> decide
  rw [double, double, double, shifted, reduction]
  ac_rfl

/-- Tripling distributes over exclusive or. -/
theorem triple_xor (x y : ℕ) : triple (x ^^^ y) = triple x ^^^ triple y := by
  rw [triple, triple, triple, double_xor]
  ac_rfl

/-- Repeated tripling distributes over exclusive or. -/
theorem triple_iterate_xor (count x y : ℕ) :
    triple^[count] (x ^^^ y) = triple^[count] x ^^^ triple^[count] y := by
  induction count generalizing x y with
  | zero => rfl
  | succ count ih => rw [Function.iterate_succ_apply, triple_xor, ih]; rfl

/-! ## Multiplication of symbols -/

/-- The product of two symbols. -/
def product (x y : ℕ) : ℕ := if x = 0 ∨ y = 0 then 0 else exp ((log x + log y) % 255)

/-- On symbols `multiply28` stays inside its tables and answers the product. -/
theorem multiply28_symbols {x y : ℕ} (hx : x < 256) (hy : y < 256) :
    multiply28 x y = some (product x y) := by
  unfold multiply28 product
  split
  · rfl
  · have boundX := log_lt x hx
    have boundY := log_lt y hy
    have wrapped : exp (if log x + log y > 255 then log x + log y - 255 else log x + log y) =
        exp ((log x + log y) % 255) := by
      by_cases large : log x + log y > 255
      · rw [if_pos large, show (log x + log y) % 255 = log x + log y - 255 by omega]
      · rw [if_neg large]
        by_cases full : log x + log y = 255
        · rw [full]
          decide
        · rw [Nat.mod_eq_of_lt (by omega)]
    simp only [lookup_log x hx, lookup_log y hy, Option.bind_eq_bind, Option.bind_some]
    rw [lookup_exp _ (by split <;> omega), wrapped]

/-- A product of symbols is a symbol. -/
theorem product_lt (x y : ℕ) : product x y < 256 := by
  unfold product
  split
  · decide
  · exact (exp_range _ (by omega)).2

/-- The product of nonzero symbols is nonzero, with the sum of the logarithms. -/
theorem product_exp (i j : ℕ) : product (exp (i % 255)) (exp (j % 255)) = exp ((i + j) % 255) := by
  have left := exp_range (i % 255) (by omega)
  have right := exp_range (j % 255) (by omega)
  rw [product, if_neg (by omega), log_exp _ (by omega), log_exp _ (by omega), ← Nat.add_mod]

/-- Every nonzero symbol is an exponential. -/
theorem symbol_cases (x : ℕ) (inside : x < 256) : x = 0 ∨ ∃ i, x = exp (i % 255) := by
  rcases Nat.eq_zero_or_pos x with zero | nonzero
  · exact Or.inl zero
  · refine Or.inr ⟨log x, ?_⟩
    rw [Nat.mod_eq_of_lt (log_lt x inside), exp_log x inside nonzero]

/-- Products commute. -/
theorem product_comm (x y : ℕ) : product x y = product y x := by
  simp only [product, Nat.add_comm (log x), or_comm (a := x = 0)]

/-- Zero absorbs. -/
theorem zero_product (x : ℕ) : product 0 x = 0 := if_pos (Or.inl rfl)

/-- Zero absorbs on the right. -/
theorem product_zero (x : ℕ) : product x 0 = 0 := if_pos (Or.inr rfl)

/-- Products associate. -/
theorem product_assoc {x y z : ℕ} (hx : x < 256) (hy : y < 256) (hz : z < 256) :
    product (product x y) z = product x (product y z) := by
  rcases symbol_cases x hx with rfl | ⟨i, rfl⟩
  · simp only [zero_product]
  rcases symbol_cases y hy with rfl | ⟨j, rfl⟩
  · simp only [zero_product, product_zero]
  rcases symbol_cases z hz with rfl | ⟨k, rfl⟩
  · simp only [product_zero]
  rw [product_exp, product_exp, product_exp, product_exp, Nat.add_assoc]

/-- Multiplying by a power of the generator is repeated tripling. -/
theorem exp_product (i : ℕ) {y : ℕ} (hy : y < 256) :
    product (exp (i % 255)) y = triple^[i] y := by
  rcases symbol_cases y hy with rfl | ⟨j, rfl⟩
  · rw [product_zero]
    exact (Function.iterate_fixed (show triple 0 = 0 by decide) i).symm
  · rw [product_exp]
    induction i with
    | zero => simp
    | succ i ih =>
      rw [Function.iterate_succ_apply', ← ih, ← exp_mod_succ]
      ring_nf

/-- One is neutral. -/
theorem one_product {x : ℕ} (hx : x < 256) : product 1 x = x := by
  have unit := exp_product 0 hx
  rwa [show exp (0 % 255) = 1 by decide] at unit

/-- Products distribute over exclusive or. -/
theorem product_xor {x y z : ℕ} (hx : x < 256) (hy : y < 256) (hz : z < 256) :
    product x (y ^^^ z) = product x y ^^^ product x z := by
  rcases symbol_cases x hx with rfl | ⟨i, rfl⟩
  · simp [zero_product]
  · have sum : y ^^^ z < 256 := Nat.xor_lt_two_pow (n := 8) hy hz
    rw [exp_product i hy, exp_product i hz, exp_product i sum, triple_iterate_xor]

/-- The tabulated inverse. -/
def inverse (x : ℕ) : ℕ := (lookup invTable x).getD 0

/-- What the table of inverses says of each entry, read off it once. -/
theorem inverses_agree : ∀ x < 256, inv28 x = some (inverse x) ∧ inverse x < 256 ∧
    (x ≠ 0 → product x (inverse x) = 1) := by
  decide +kernel

/-- On symbols `inv28` stays inside its table. -/
theorem inv28_symbols {x : ℕ} (hx : x < 256) : inv28 x = some (inverse x) :=
  (inverses_agree x hx).1

/-- An inverse is a symbol. -/
theorem inverse_lt {x : ℕ} (hx : x < 256) : inverse x < 256 := (inverses_agree x hx).2.1

/-- A nonzero symbol times its tabulated inverse is one. -/
theorem product_inverse {x : ℕ} (hx : x < 256) (nonzero : x ≠ 0) : product x (inverse x) = 1 :=
  (inverses_agree x hx).2.2 nonzero

/-! ## The field -/

/-- A field symbol: an unsigned integer the tables are indexed by. -/
@[ext]
structure Symbol where
  /-- The unsigned integer the code computes with. -/
  val : ℕ
  /-- Every symbol indexes the tables. -/
  lt : val < 256
deriving DecidableEq

namespace Symbol

instance : Zero Symbol := ⟨⟨0, by decide⟩⟩
instance : One Symbol := ⟨⟨1, by decide⟩⟩
instance : Add Symbol := ⟨fun x y => ⟨x.val ^^^ y.val, Nat.xor_lt_two_pow (n := 8) x.lt y.lt⟩⟩
instance : Neg Symbol := ⟨id⟩
instance : Mul Symbol := ⟨fun x y => ⟨product x.val y.val, product_lt _ _⟩⟩
instance : Inv Symbol := ⟨fun x => ⟨inverse x.val, inverse_lt x.lt⟩⟩

/-- The zero of the field. -/
@[simp]
theorem val_zero : (0 : Symbol).val = 0 := rfl

/-- The one of the field. -/
@[simp]
theorem val_one : (1 : Symbol).val = 1 := rfl

/-- A sum is an exclusive or. -/
@[simp]
theorem val_add (x y : Symbol) : (x + y).val = x.val ^^^ y.val := rfl

/-- A product is tabulated. -/
@[simp]
theorem val_mul (x y : Symbol) : (x * y).val = product x.val y.val := rfl

/-- The symbols with exclusive or and the tabulated product form a field. -/
instance : Field Symbol where
  add_assoc x y z := Symbol.ext (Nat.xor_assoc _ _ _)
  zero_add x := Symbol.ext (Nat.zero_xor _)
  add_zero x := Symbol.ext (Nat.xor_zero _)
  add_comm x y := Symbol.ext (Nat.xor_comm _ _)
  neg_add_cancel x := Symbol.ext (Nat.xor_self _)
  nsmul := nsmulRec
  zsmul := zsmulRec
  mul_assoc x y z := Symbol.ext (product_assoc x.lt y.lt z.lt)
  mul_comm x y := Symbol.ext (product_comm _ _)
  one_mul x := Symbol.ext (one_product x.lt)
  mul_one x := Symbol.ext ((product_comm x.val 1).trans (one_product x.lt))
  zero_mul x := Symbol.ext (zero_product x.val)
  mul_zero x := Symbol.ext (product_zero x.val)
  left_distrib x y z := Symbol.ext (product_xor x.lt y.lt z.lt)
  right_distrib x y z := Symbol.ext (by
    simp only [val_mul, val_add, product_comm _ z.val]
    exact product_xor z.lt x.lt y.lt)
  exists_pair_ne := ⟨0, 1, by decide⟩
  mul_inv_cancel x nonzero := Symbol.ext (product_inverse x.lt fun zero =>
    nonzero (Symbol.ext zero))
  inv_zero := by decide
  nnqsmul := _
  nnqsmul_def _ _ := rfl
  qsmul := _
  qsmul_def _ _ := rfl


/-- The generator the encoder and the decoder take powers of. -/
def generator : Symbol := ⟨3, by decide⟩

/-- Powers of the generator are the tabulated exponentials. -/
theorem val_generator_pow (i : ℕ) : (generator ^ i).val = exp (i % 255) := by
  induction i with
  | zero => rfl
  | succ i ih =>
    rw [pow_succ', val_mul, ih, show generator.val = exp (1 % 255) from by decide, product_exp,
      Nat.add_comm]

/-- The generator has order 255: smaller powers are distinct. -/
theorem generator_pow_injective {i j : ℕ} (hi : i < 255) (hj : j < 255)
    (same : generator ^ i = generator ^ j) : i = j := by
  have values := congrArg (fun x => log (Symbol.val x)) same
  simpa only [val_generator_pow, Nat.mod_eq_of_lt hi, Nat.mod_eq_of_lt hj, log_exp i hi,
    log_exp j hj] using values

end Symbol

/-- `multiply28` on symbols is the field product. -/
theorem multiply28_val (x y : Symbol) : multiply28 x.val y.val = some (x * y).val :=
  multiply28_symbols x.lt y.lt

/-- `inv28` on symbols is the field inverse. -/
theorem inv28_val (x : Symbol) : inv28 x.val = some (x⁻¹).val := inv28_symbols x.lt

end TinyTools.Ecc
