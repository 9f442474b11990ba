import Mathlib.Data.Nat.Find
import Mathlib.Logic.Function.Basic

/-!
# Descriptor tables

A process refers to its open files by numbers, finitely many of which are in use. A new number is
the least one that is not; what a number refers to can be copied to another number, which gives up
what it referred to before.
-/

namespace TinyTools.Lib

/-- What the descriptors of a process refer to. -/
@[ext]
structure Descriptors (φ : Type) where
  /-- What a number refers to. -/
  slot : ℕ → Option φ
  /-- Finitely many numbers are in use. -/
  finite : ∃ bound, ∀ fd, bound ≤ fd → slot fd = none

namespace Descriptors

variable {φ : Type}

/-- A number is made to refer to something, or to nothing. -/
def put (t : Descriptors φ) (fd : ℕ) (file : Option φ) : Descriptors φ where
  slot := Function.update t.slot fd file
  finite := by
    obtain ⟨bound, free⟩ := t.finite
    refine ⟨max bound (fd + 1), fun other far => ?_⟩
    have beyond : bound ≤ other := by omega
    have different : other ≠ fd := by omega
    rw [Function.update_of_ne different]
    exact free other beyond

/-- Some number is free. -/
theorem exists_free (t : Descriptors φ) : ∃ fd, t.slot fd = none := by
  obtain ⟨bound, free⟩ := t.finite
  exact ⟨bound, free bound le_rfl⟩

/-- The least number that is not in use. -/
def lowest (t : Descriptors φ) : ℕ := Nat.find t.exists_free

/-- A new number for a file. -/
def allocate (t : Descriptors φ) (file : φ) : ℕ × Descriptors φ :=
  (t.lowest, t.put t.lowest (some file))

/-- `close`. -/
def close (t : Descriptors φ) (fd : ℕ) : Descriptors φ := t.put fd none

/-- `dup2`, which fails when the old number is not in use. -/
def dup2 (t : Descriptors φ) (old new : ℕ) : Descriptors φ :=
  match t.slot old with
  | none => t
  | some file => t.put new (some file)

/-- `pipe`: the numbers of the two ends. -/
def pipe (t : Descriptors φ) (reader writer : φ) : (ℕ × ℕ) × Descriptors φ :=
  let (rd, opened) := t.allocate reader
  let (wr, opened) := opened.allocate writer
  ((rd, wr), opened)

/-- Some number refers to a file. -/
def Holds (t : Descriptors φ) (file : φ) : Prop := ∃ fd, t.slot fd = some file

/-- All numbers below another are in use. -/
def FullBelow (t : Descriptors φ) (bound : ℕ) : Prop := ∀ fd < bound, t.slot fd ≠ none

variable {t : Descriptors φ}

/-- A file is put at one number. -/
@[simp]
theorem slot_put (fd other : ℕ) (file : Option φ) :
    (t.put fd file).slot other = if other = fd then file else t.slot other :=
  Function.update_apply t.slot fd file other

/-- One number is closed. -/
@[simp]
theorem slot_close (fd other : ℕ) :
    (t.close fd).slot other = if other = fd then none else t.slot other :=
  slot_put fd other none

/-- What a number in use refers to is copied. -/
theorem dup2_of_slot {old : ℕ} {file : φ} (used : t.slot old = some file) (new : ℕ) :
    t.dup2 old new = t.put new (some file) := by
  unfold dup2
  rw [used]

/-! ## The least free number -/

/-- The lowest free number is free. -/
theorem slot_lowest (t : Descriptors φ) : t.slot t.lowest = none := Nat.find_spec t.exists_free

/-- Below the least free number all are in use. -/
theorem fullBelow_lowest (t : Descriptors φ) : t.FullBelow t.lowest := fun _ below =>
  Nat.find_min t.exists_free below

/-- Where all numbers below another are in use, the least free one is not among them. -/
theorem FullBelow.le_lowest {bound : ℕ} (full : t.FullBelow bound) : bound ≤ t.lowest := by
  by_contra below
  exact full t.lowest (not_le.mp below) t.slot_lowest

/-- The first number that is not in use is the least one. -/
theorem FullBelow.lowest_eq {bound : ℕ} (full : t.FullBelow bound) (free : t.slot bound = none) :
    t.lowest = bound := by
  apply le_antisymm
  · exact Nat.find_min' t.exists_free free
  · exact full.le_lowest

/-- A file does not take a number away. -/
theorem FullBelow.put {bound : ℕ} (full : t.FullBelow bound) (fd : ℕ) (file : φ) :
    (t.put fd (some file)).FullBelow bound := by
  intro other below
  rw [slot_put]
  split_ifs
  · exact Option.some_ne_none file
  · exact full other below

/-! ## The two ends of a pipe -/

/-- The ends of a pipe get two numbers that were not in use, and nothing else changes. -/
theorem pipe_spec (t : Descriptors φ) (reader writer : φ) {rd wr : ℕ} {opened : Descriptors φ}
    (piped : t.pipe reader writer = ((rd, wr), opened)) :
    rd = t.lowest ∧ rd < wr ∧ t.slot wr = none ∧
      ∀ fd, opened.slot fd =
        if fd = rd then some reader else if fd = wr then some writer else t.slot fd := by
  obtain ⟨ends, rfl⟩ := Prod.mk.inj piped
  obtain ⟨rfl, rfl⟩ := Prod.mk.inj ends
  let first := t.put t.lowest (some reader)
  have full : first.FullBelow (t.lowest + 1) := by
    intro fd below
    rw [slot_put]
    split_ifs with same
    · exact Option.some_ne_none reader
    · exact t.fullBelow_lowest fd (by omega)
  have above : t.lowest + 1 ≤ first.lowest := full.le_lowest
  have free : first.slot first.lowest = none := first.slot_lowest
  have other : first.lowest ≠ t.lowest := by omega
  rw [slot_put, if_neg other] at free
  refine ⟨rfl, above, free, fun fd => ?_⟩
  change (first.put first.lowest (some writer)).slot fd =
    if fd = t.lowest then some reader else if fd = first.lowest then some writer else t.slot fd
  rw [slot_put, slot_put]
  by_cases same : fd = t.lowest
  · rw [same, if_neg other.symm, if_pos rfl, if_pos rfl]
  · rw [if_neg same, if_neg same]

/-- The ends of a pipe are the first free number and the one behind it, where that is free. -/
theorem pipe_fst (t : Descriptors φ) (reader writer : φ) {bound : ℕ} (full : t.FullBelow bound)
    (first : t.slot bound = none) (second : t.slot (bound + 1) = none) :
    (t.pipe reader writer).1 = (bound, bound + 1) := by
  have lowest := full.lowest_eq first
  have next : (t.put bound (some reader)).FullBelow (bound + 1) := by
    intro fd below
    rw [slot_put]
    split_ifs with same
    · exact Option.some_ne_none reader
    · exact full fd (by omega)
  have free : (t.put bound (some reader)).slot (bound + 1) = none := by
    rw [slot_put, if_neg (Nat.succ_ne_self bound)]
    exact second
  change (t.lowest, (t.put t.lowest (some reader)).lowest) = _
  rw [lowest, next.lowest_eq free]

end Descriptors

end TinyTools.Lib
