import TinyTools.Chord.Retry
import TinyTools.Chord.Sha1

/-!
# The starts of the fingers

`main` adds a power of two to the local key in a double and converts the sum back, which is
undefined from `2 ^ 32` on: the conversion takes nothing modulo. So the table is right where no sum
leaves the words, on the lower half of the ring; there it is the one of `startNode`.
-/

namespace TinyTools.Chord

open TinyTools.Lib

/-- The conversion of a double to `unsigned int`, undefined from `2 ^ 32` on. The sums are whole
numbers below `2 ^ 53`, which doubles hold exactly. -/
def doubleToUnsigned (value : ℕ) : Option UInt32 :=
  if value < 2 ^ 32 then some (UInt32.ofNat value) else none

/-- `localNode.key + pow(2, i)`, assigned to a start. -/
def fingerStart (key : UInt32) (i : Fin 32) : Option UInt32 :=
  doubleToUnsigned (key.toNat + 2 ^ i.val)

/-- The loop of `main` over rows of the finger table. -/
def fillFingers (translate : ℕ → UInt32) (port : ℕ) :
    List (Fin 32) → (Fin 32 → Entry) → Option (Fin 32 → Entry)
  | [], finTb => some finTb
  | i :: rows, finTb => do
    let start ← fingerStart (translate port) i
    fillFingers translate port rows (Function.update finTb i ⟨start, nodeAt translate port⟩)

/-- The hash that `fix_fingers` looks up. -/
def portNeededFor (s : NodeState) (i : Fin 32) : UInt32 := (s.finTb i).start

/-- `fix_fingers` for rows one after the other, each with the port its lookup answered. -/
def fixFingersIn (translate : ℕ → UInt32) (s : NodeState) (fixes : List (Fin 32 × ℕ)) : NodeState :=
  fixes.foldl (fun s fix => fixFinger translate s fix.1 fix.2) s

/-- The point of the ring that a row is for. -/
def intendedPoint (key : UInt32) (i : Fin 32) : ℕ := (key.toNat + 2 ^ i.val) % 2 ^ 32

/-- The start of a row is converted within the range and is the intended point. -/
def StartCovers (key : UInt32) (i : Fin 32) : Prop :=
  ∃ start, fingerStart key i = some start ∧ start.toNat = intendedPoint key i

/-- The loop of `main` fills the table, whatever it held, and `fix_fingers` looks the intended
point of every row up, whatever rows it has refilled before. -/
def FingersCover (translate : ℕ → UInt32) (port : ℕ) : Prop :=
  ∀ garbage, ∃ table, fillFingers translate port (List.finRange 32) garbage = some table ∧
    ∀ s : NodeState, s.finTb = table → ∀ fixes i,
      (portNeededFor (fixFingersIn translate s fixes) i).toNat = intendedPoint (translate port) i

variable {translate : ℕ → UInt32} {port : ℕ} {key : UInt32}

/-- A start below `2 ^ 32` is the sum. -/
theorem fingerStart_eq {i : Fin 32} (inside : key.toNat + 2 ^ i.val < 2 ^ 32) :
    fingerStart key i = some (key + UInt32.ofNat (2 ^ i.val)) := by
  have sum : UInt32.ofNat (key.toNat + 2 ^ i.val) = key + UInt32.ofNat (2 ^ i.val) := by
    rw [UInt32.ofNat_add, UInt32.ofNat_toNat]
  rw [fingerStart, doubleToUnsigned, if_pos inside, sum]

/-- A start is defined exactly below `2 ^ 32`. -/
theorem fingerStart_isSome_iff {i : Fin 32} :
    (∃ start, fingerStart key i = some start) ↔ key.toNat + 2 ^ i.val < 2 ^ 32 := by
  constructor
  · rintro ⟨start, converted⟩
    by_contra beyond
    rw [fingerStart, doubleToUnsigned, if_neg beyond] at converted
    cases converted
  · intro inside
    exact ⟨_, fingerStart_eq inside⟩

/-- A start covers its point exactly when the sum stays below `2 ^ 32`. -/
theorem startCovers_iff {i : Fin 32} : StartCovers key i ↔ key.toNat + 2 ^ i.val < 2 ^ 32 := by
  constructor
  · rintro ⟨start, converted, -⟩
    exact fingerStart_isSome_iff.mp ⟨start, converted⟩
  · intro inside
    refine ⟨UInt32.ofNat (key.toNat + 2 ^ i.val), ?_, ?_⟩
    · rw [fingerStart, doubleToUnsigned, if_pos inside]
    · exact UInt32.toNat_ofNat

/-- The loop ends exactly when the starts of its rows are defined. -/
theorem fillFingers_isSome_iff (rows : List (Fin 32)) (finTb : Fin 32 → Entry) :
    (∃ table, fillFingers translate port rows finTb = some table) ↔
      ∀ i ∈ rows, (translate port).toNat + 2 ^ i.val < 2 ^ 32 := by
  induction rows generalizing finTb with
  | nil => exact ⟨fun _ _ none => absurd none List.not_mem_nil, fun _ => ⟨finTb, rfl⟩⟩
  | cons i rows ih =>
    rw [List.forall_mem_cons, ← fingerStart_isSome_iff]
    constructor
    · rintro ⟨table, filled⟩
      obtain ⟨start, converted, rest⟩ := Option.bind_eq_some_iff.mp filled
      exact ⟨⟨start, converted⟩, (ih _).mp ⟨table, rest⟩⟩
    · rintro ⟨⟨start, converted⟩, inside⟩
      obtain ⟨table, rest⟩ := (ih _).mpr inside
      exact ⟨table, Option.bind_eq_some_iff.mpr ⟨start, converted, rest⟩⟩

/-- What the loop leaves in a row: its start and the node itself, or what was there. -/
theorem fillFingers_apply {rows : List (Fin 32)} {finTb table : Fin 32 → Entry}
    (filled : fillFingers translate port rows finTb = some table) (i : Fin 32) :
    table i = if i ∈ rows then
      ⟨translate port + UInt32.ofNat (2 ^ i.val), nodeAt translate port⟩ else finTb i := by
  induction rows generalizing finTb with
  | nil =>
    rw [← Option.some.inj filled, if_neg List.not_mem_nil]
  | cons first rows ih =>
    obtain ⟨start, converted, rest⟩ := Option.bind_eq_some_iff.mp filled
    have inside := fingerStart_isSome_iff.mp ⟨start, converted⟩
    have sum := Option.some.inj ((fingerStart_eq inside).symm.trans converted)
    rw [ih rest]
    by_cases later : i ∈ rows
    · rw [if_pos later, if_pos (List.mem_cons_of_mem _ later)]
    · rw [if_neg later]
      by_cases now : i = first
      · rw [now, Function.update_self, if_pos List.mem_cons_self, ← sum]
      · have absent : i ∉ first :: rows := by
          rw [List.mem_cons, not_or]
          exact ⟨now, later⟩
        rw [Function.update_of_ne now, if_neg absent]

/-- A table that the loop fills is the one of `startNode`. -/
theorem fillFingers_eq_startNode {finTb table : Fin 32 → Entry} (garbage : Node)
    (filled : fillFingers translate port (List.finRange 32) finTb = some table) :
    table = (startNode translate garbage port).finTb := by
  funext i
  rw [fillFingers_apply filled i, if_pos (List.mem_finRange i)]
  rfl

/-- Refilling rows moves no start. -/
theorem fixFingersIn_start (s : NodeState) (fixes : List (Fin 32 × ℕ)) (i : Fin 32) :
    portNeededFor (fixFingersIn translate s fixes) i = portNeededFor s i := by
  induction fixes generalizing s with
  | nil => rfl
  | cons fix fixes ih =>
    have step : portNeededFor (fixFinger translate s fix.1 fix.2) i = portNeededFor s i := by
      unfold portNeededFor fixFinger
      dsimp only
      by_cases refilled : i = fix.1
      · rw [refilled, Function.update_self]
      · rw [Function.update_of_ne refilled]
    exact (ih _).trans step

/-- Every sum stays below `2 ^ 32` exactly when the highest one does. -/
theorem sums_inside_iff (key : UInt32) :
    (∀ i ∈ List.finRange 32, key.toNat + 2 ^ i.val < 2 ^ 32) ↔ key.toNat < 2 ^ 31 := by
  constructor
  · intro inside
    have highest := inside 31 (List.mem_finRange _)
    have power : (2 : ℕ) ^ (31 : Fin 32).val = 2 ^ 31 := rfl
    omega
  · intro lower i _
    have power : 2 ^ i.val ≤ 2 ^ 31 := Nat.pow_le_pow_right (by decide) (by omega)
    omega

/-- The start of a row is its point of the ring exactly when the sum stays below `2 ^ 32`, and the
table covers the ring exactly when the node lies on the lower half of it. -/
theorem fingersCover_iff (translate : ℕ → UInt32) (port : ℕ) :
    (∀ i, StartCovers (translate port) i ↔ (translate port).toNat + 2 ^ i.val < 2 ^ 32) ∧
      (FingersCover translate port ↔ (translate port).toNat < 2 ^ 31) := by
  refine ⟨fun i => startCovers_iff, ?_⟩
  constructor
  · intro covers
    obtain ⟨table, filled, -⟩ := covers fun _ => ⟨0, nodeAt translate port⟩
    exact (sums_inside_iff _).mp ((fillFingers_isSome_iff _ _).mp ⟨table, filled⟩)
  · intro lower garbage
    have inside := (sums_inside_iff _).mpr lower
    obtain ⟨table, filled⟩ := (fillFingers_isSome_iff _ garbage).mpr inside
    refine ⟨table, filled, fun s same fixes i => ?_⟩
    have sum := inside i (List.mem_finRange i)
    rw [fixFingersIn_start, portNeededFor, same, fillFingers_apply filled i,
      if_pos (List.mem_finRange i)]
    obtain ⟨start, converted, point⟩ := startCovers_iff.mpr sum
    rw [Option.some.inj ((fingerStart_eq sum).symm.trans converted)]
    exact point

/-- `translate`, where `malloc` returns memory that is zero. -/
def localhostKey (port : ℕ) : UInt32 := hashFunction (bytes "127.0.0.1:" ++ decimal port)

/-- The key of port 8000 lies on the upper half of the ring: the sum for its last row leaves the
words. -/
theorem not_fingersCover_upper :
    ¬ StartCovers (localhostKey 8000) 31 ∧ ¬ FingersCover localhostKey 8000 := by
  have upper : 2 ^ 31 ≤ (localhostKey 8000).toNat := by decide +kernel
  have power : (2 : ℕ) ^ (31 : Fin 32).val = 2 ^ 31 := rfl
  constructor
  · intro covers
    have inside := startCovers_iff.mp covers
    omega
  · intro covers
    obtain ⟨table, filled, -⟩ := covers fun _ => ⟨0, nodeAt localhostKey 8000⟩
    have inside := (fillFingers_isSome_iff _ _).mp ⟨table, filled⟩ 31 (List.mem_finRange _)
    omega

end TinyTools.Chord
