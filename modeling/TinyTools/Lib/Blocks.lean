import Mathlib.Data.List.Induction

/-!
# Input collected in blocks

A state machine takes its input element by element, collects it in a block, and works a block off as
soon as it is full. What it has done is a function of the whole input: the full blocks are worked
off in order, and the rest is still collected.
-/

namespace TinyTools.Lib

variable {σ β : Type} {size : ℕ}

/-- The full blocks of an input. -/
def blocks (size : ℕ) (input : List β) : List (List β) :=
  (List.range (input.length / size)).map fun i => (input.drop (i * size)).take size

/-- What is left behind the full blocks. -/
def leftOver (size : ℕ) (input : List β) : List β := input.drop (input.length / size * size)

/-- One more element is collected, and a block that becomes full is worked off. -/
def collect (size : ℕ) (work : σ → List β → σ) (s : σ × List β) (element : β) : σ × List β :=
  if (s.2 ++ [element]).length = size then (work s.1 (s.2 ++ [element]), [])
  else (s.1, s.2 ++ [element])

/-- Nothing has no blocks. -/
@[simp]
theorem blocks_nil : blocks size ([] : List β) = [] := by
  rw [blocks, List.length_nil, Nat.zero_div]
  rfl

/-- Nothing is left over of nothing. -/
@[simp]
theorem leftOver_nil : leftOver size ([] : List β) = [] := List.drop_nil

/-- Less than a block is left over. -/
theorem length_leftOver (input : List β) : (leftOver size input).length = input.length % size := by
  have division := Nat.div_add_mod' input.length size
  rw [leftOver, List.length_drop]
  omega

/-- What is left over does not fill a block. -/
theorem length_leftOver_lt (positive : 0 < size) (input : List β) :
    (leftOver size input).length < size := by
  rw [length_leftOver]
  exact Nat.mod_lt _ positive

/-- An input that is too short has no full block. -/
theorem blocks_of_lt {input : List β} (short : input.length < size) : blocks size input = [] := by
  rw [blocks, Nat.div_eq_of_lt short]
  rfl

/-- What does not fill a block is left over. -/
theorem leftOver_of_lt {input : List β} (short : input.length < size) :
    leftOver size input = input := by
  rw [leftOver, Nat.div_eq_of_lt short, Nat.zero_mul, List.drop_zero]

/-- An input of the size of a block is one. -/
theorem blocks_of_eq (positive : 0 < size) {input : List β} (whole : input.length = size) :
    blocks size input = [input] := by
  rw [blocks, whole, Nat.div_self positive, List.range_one, List.map_singleton, Nat.zero_mul,
    List.drop_zero, List.take_of_length_le (Nat.le_of_eq whole)]

/-- Of one block nothing is left over. -/
theorem leftOver_of_eq {input : List β} (whole : input.length = size) :
    leftOver size input = [] := by
  apply List.eq_nil_of_length_eq_zero
  rw [length_leftOver, whole, Nat.mod_self]

/-- The number of blocks of two inputs. -/
theorem length_append_div (positive : 0 < size) (first second : List β) :
    (first ++ second).length / size =
      first.length / size + (leftOver size first ++ second).length / size := by
  have division := Nat.div_add_mod' first.length size
  have whole : first.length + second.length =
      first.length % size + second.length + first.length / size * size := by omega
  rw [List.length_append, List.length_append, length_leftOver, whole,
    Nat.add_mul_div_right _ _ positive, Nat.add_comm]

/-- The blocks of two inputs: those of the first, and those of the rest with the second. -/
theorem blocks_append (positive : 0 < size) (first second : List β) :
    blocks size (first ++ second) =
      blocks size first ++ blocks size (leftOver size first ++ second) := by
  have count := length_append_div positive first second
  rw [blocks, count, List.range_add, List.map_append, List.map_map, blocks, blocks]
  congr 1
  · apply List.map_congr_left
    intro i inside
    have within : (i + 1) * size ≤ first.length :=
      Nat.le_trans (Nat.mul_le_mul_right size (List.mem_range.mp inside)) (Nat.div_mul_le_self ..)
    rw [Nat.add_mul, Nat.one_mul] at within
    rw [List.drop_append_of_le_length (by omega), List.take_append_of_le_length]
    rw [List.length_drop]
    omega
  · apply List.map_congr_left
    intro i _
    have reached : first.length / size * size ≤ first.length := Nat.div_mul_le_self ..
    rw [Function.comp_apply, Nat.add_mul, ← List.drop_drop,
      List.drop_append_of_le_length reached, leftOver]

/-- The rest of two inputs. -/
theorem leftOver_append (positive : 0 < size) (first second : List β) :
    leftOver size (first ++ second) = leftOver size (leftOver size first ++ second) := by
  have count := length_append_div positive first second
  have reached : first.length / size * size ≤ first.length := Nat.div_mul_le_self ..
  rw [leftOver, count, Nat.add_mul, ← List.drop_drop, List.drop_append_of_le_length reached,
    leftOver, leftOver]

/-- One more element after an input has been worked off. -/
theorem collect_append (positive : 0 < size) (work : σ → List β → σ) (s : σ) (input : List β)
    (element : β) :
    collect size work ((blocks size input).foldl work s, leftOver size input) element =
      ((blocks size (input ++ [element])).foldl work s, leftOver size (input ++ [element])) := by
  have short := length_leftOver_lt positive input
  have grown : (leftOver size input ++ [element]).length = (leftOver size input).length + 1 := by
    rw [List.length_append, List.length_singleton]
  rw [blocks_append positive, leftOver_append positive, List.foldl_append, collect]
  by_cases full : (leftOver size input ++ [element]).length = size
  · rw [if_pos full, blocks_of_eq positive full, leftOver_of_eq full]
    rfl
  · have less : (leftOver size input ++ [element]).length < size := by omega
    rw [if_neg full, blocks_of_lt less, leftOver_of_lt less]
    rfl

end TinyTools.Lib
