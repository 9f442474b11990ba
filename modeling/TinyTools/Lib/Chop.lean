import Mathlib.Data.List.Basic
import Mathlib.Data.Nat.Notation

/-!
# Cutting a list into pieces

A function that answers a first piece of every list cuts the list: the first piece, the first piece
of the rest, and so on. The pieces together are the list as soon as the function takes a piece from
the front, and something from every list that is not empty.
-/

namespace TinyTools.Lib

variable {α : Type} (first : List α → List α)

/-- Take first pieces, a number of times at most. -/
def chopLoop : ℕ → List α → List (List α)
  | 0, _ => []
  | rounds + 1, data =>
    if data.isEmpty then []
    else first data :: chopLoop rounds (data.drop (first data).length)

/-- The pieces of a list. There are no more of them than elements. -/
def chop (data : List α) : List (List α) := chopLoop first data.length data

/-- The function takes a piece from the front, and something unless there is nothing. -/
structure Chops : Prop where
  /-- A first piece and the rest are the list. -/
  append_drop : ∀ data, first data ++ data.drop (first data).length = data
  /-- A first piece is not empty. -/
  ne_nil : ∀ data, data ≠ [] → first data ≠ []

variable {first}

/-- What is left behind a first piece is shorter. -/
theorem Chops.drop_lt (chops : Chops first) {data : List α} (some_ : data ≠ []) :
    (data.drop (first data).length).length < data.length := by
  have taken := List.length_pos_iff.mpr (chops.ne_nil data some_)
  have positive := List.length_pos_iff.mpr some_
  rw [List.length_drop]
  omega

/-- More rounds than elements make no difference. -/
theorem Chops.loop_enough (chops : Chops first) (rounds : ℕ) (data : List α)
    (enough : data.length ≤ rounds) : chopLoop first rounds data = chop first data := by
  unfold chop
  obtain ⟨size, bound⟩ : ∃ size, data.length < size := ⟨_, Nat.lt_succ_self _⟩
  induction size generalizing rounds data with
  | zero => exact absurd bound (Nat.not_lt_zero _)
  | succ size ih =>
    by_cases empty : data = []
    · subst empty
      cases rounds <;> rfl
    · have shorter := chops.drop_lt empty
      have notEmpty : ¬ data.isEmpty = true := by rwa [List.isEmpty_iff]
      obtain ⟨rounds, rfl⟩ : ∃ n, rounds = n + 1 := ⟨rounds - 1, by omega⟩
      obtain ⟨n, counted⟩ : ∃ n, data.length = n + 1 := ⟨data.length - 1, by omega⟩
      rw [counted, chopLoop, chopLoop, if_neg notEmpty, if_neg notEmpty,
        ih rounds _ (by omega) (by omega), ih n _ (by omega) (by omega)]

/-- The first piece and the others. -/
theorem Chops.chop_cons (chops : Chops first) {data : List α} (some_ : data ≠ []) :
    chop first data = first data :: chop first (data.drop (first data).length) := by
  have shorter := chops.drop_lt some_
  have notEmpty : ¬ data.isEmpty = true := by rwa [List.isEmpty_iff]
  obtain ⟨n, counted⟩ : ∃ n, data.length = n + 1 := ⟨data.length - 1, by omega⟩
  rw [chop, counted, chopLoop, if_neg notEmpty, chops.loop_enough n _ (by omega)]

/-- A fact about every list follows from the empty list, and from what is left behind a first
piece. -/
theorem Chops.induction (chops : Chops first) {property : List α → Prop} (nil : property [])
    (cons : ∀ data, data ≠ [] → property (data.drop (first data).length) → property data)
    (data : List α) : property data := by
  obtain ⟨size, bound⟩ : ∃ size, data.length < size := ⟨_, Nat.lt_succ_self _⟩
  induction size generalizing data with
  | zero => exact absurd bound (Nat.not_lt_zero _)
  | succ size ih =>
    by_cases empty : data = []
    · rw [empty]
      exact nil
    · have shorter := chops.drop_lt empty
      exact cons data empty (ih _ (by omega))

/-- The pieces together are the list. -/
theorem Chops.flatten_chop (chops : Chops first) (data : List α) :
    (chop first data).flatten = data := by
  induction data using chops.induction with
  | nil => rfl
  | cons data some_ ih => rw [chops.chop_cons some_, List.flatten_cons, ih, chops.append_drop]

end TinyTools.Lib
