import TinyTools.Ecc.Solver

/-!
# Decoding after erasures

The decoder solves for the coefficients of a polynomial from its values at the positions that are
not marked missing. The powers of the generator at different positions are different, so any `k`
surviving positions determine a message of `k` symbols, and decoding a codeword with erasures
returns the message it was made from.
-/

open Finset TinyTools.Lib

namespace TinyTools.Ecc

/-! ## The rows the decoder keeps -/

/-- The positions the decoder does not take as missing, in order. -/
def survivors (c : List ℕ) : List ℕ := (List.range c.length).filter fun i => c.getD i 0 ≤ 256

/-- The row the decoder builds for one position. -/
def keptRow (k : ℕ) (c : List ℕ) (i : ℕ) : List ℕ :=
  (List.range k).map (fun h => ((Symbol.generator ^ i) ^ h).val) ++ [c.getD i 0]

/-- The original matrix holds the powers of the generator row by row. -/
theorem buildRow_run (size : ℕ) :
    ∃ built, forUp 0 size (buildRow size) (1, List.replicate size (List.replicate size 1)) =
      some built ∧ Grid size size built.2 (fun a b => (Symbol.generator ^ a) ^ b) := by
  have ones : Grid size size (List.replicate size (List.replicate size 1)) (fun _ _ => 1) :=
    ⟨List.length_replicate, fun i hi j hj => by simp [readAt, hi, hj]⟩
  have loop := forUp_rule (buildRow size)
    (fun i state => state.1 = (Symbol.generator ^ i).val ∧ Grid size size state.2
      (fun a b => if a < i then (Symbol.generator ^ a) ^ b else 1))
    (Nat.zero_le size) (1, List.replicate size (List.replicate size 1))
    ⟨rfl, ones⟩ ?step
  case step =>
    rintro i ⟨base, matrix⟩ - hi ⟨rfl, before⟩
    have loop := forUp_rule (nextEntry (Symbol.generator ^ i).val i)
      (fun j matrix => Grid size size matrix (fun a b =>
        if a < i ∨ a = i ∧ b < j then (Symbol.generator ^ a) ^ b else 1))
      (show 1 ≤ size by omega) matrix ?first ?step
    case first =>
      apply before.congr
      intro a _ b _
      by_cases start : a = i ∧ b < 1
      · obtain ⟨rfl, first⟩ := start
        obtain rfl : b = 0 := by omega
        simp
      · have same : (a < i ∨ a = i ∧ b < 1) ↔ a < i := by grind
        simp only [same]
    case step =>
      intro j matrix low high before
      have previous := before.entry i hi (j - 1) (by omega)
      beta_reduce at previous
      rw [if_pos (Or.inr ⟨rfl, by omega⟩)] at previous
      obtain ⟨next, wrote, after⟩ := before.write hi high ((Symbol.generator ^ i) ^ j)
      have power : (Symbol.generator ^ i) ^ (j - 1) * Symbol.generator ^ i =
          (Symbol.generator ^ i) ^ j := by
        rw [← pow_succ, Nat.sub_add_cancel low]
      refine ⟨next, ?_, after.congr fun a _ b _ => ?_⟩
      · simp only [nextEntry, previous, multiply28_val, power, wrote, Option.bind_eq_bind,
          Option.bind_some]
      · unfold replaceAt
        split_ifs <;> grind
    obtain ⟨filled, ran, after⟩ := loop
    have moved : multiply28 (Symbol.generator ^ i).val 3 =
        some (Symbol.generator ^ (i + 1)).val :=
      multiply28_val (Symbol.generator ^ i) Symbol.generator
    refine ⟨((Symbol.generator ^ (i + 1)).val, filled), ?_, rfl, after.congr fun a _ b hb => ?_⟩
    · simp only [buildRow, ran, moved, Option.bind_eq_bind, Option.bind_some]
    · split_ifs <;> grind
  obtain ⟨built, ran, -, final⟩ := loop
  exact ⟨built, ran, final.congr fun a ha b _ => if_pos ha⟩

/-- The selection keeps the rows of the first `k` survivors. -/
theorem selectRow_run {k : ℕ} {matrix : List (List ℕ)} {c : List ℕ} (fits : k ≤ c.length)
    (grid : Grid c.length c.length matrix (fun a b => (Symbol.generator ^ a) ^ b)) :
    ∃ count, forUp 0 c.length (selectRow k matrix c) (0, []) =
      some (count, ((survivors c).take k).map (keptRow k c)) := by
  let kept (i : ℕ) := (List.range i).filter fun i => c.getD i 0 ≤ 256
  have loop := forUp_rule (selectRow k matrix c)
    (fun i state => state.1 = ((kept i).take k).length ∧
      state.2 = ((kept i).take k).map (keptRow k c))
    (Nat.zero_le c.length) (0, []) (by simp [kept]) ?step
  case step =>
    rintro i ⟨count, rows⟩ - hi ⟨rfl, rfl⟩
    have present : getElem? c i = some (c.getD i 0) := by
      simp [List.getD_eq_getElem?_getD, List.getElem?_eq_getElem hi]
    have grown : kept (i + 1) = kept i ++ if c.getD i 0 ≤ 256 then [i] else [] := by
      simp only [kept, List.range_succ, List.filter_append, List.filter_cons, List.filter_nil,
        decide_eq_true_eq]
    unfold selectRow
    by_cases full : ((kept i).take k).length = k
    · have enough : k ≤ (kept i).length := by
        rw [List.length_take] at full
        omega
      rw [grown, List.take_append_of_le_length enough]
      exact ⟨_, if_pos full, rfl, rfl⟩
    · rw [List.length_take] at full
      have room : (kept i).length < k := by omega
      rw [List.take_of_length_le (Nat.le_of_lt room), if_neg (by simpa using Nat.ne_of_lt room)]
      simp only [present, Option.bind_eq_bind, Option.bind_some]
      by_cases missing : c.getD i 0 > 256
      · rw [if_pos missing, grown, if_neg (by omega), List.append_nil,
          List.take_of_length_le (Nat.le_of_lt room)]
        exact ⟨_, rfl, rfl, rfl⟩
      · have loop := forUp_rule (pushEntry matrix i)
          (fun h v => v = (List.range h).map fun h => ((Symbol.generator ^ i) ^ h).val)
          (Nat.zero_le k) [] (by simp) ?step
        case step =>
          rintro h v - below rfl
          refine ⟨_, ?_, rfl⟩
          simp only [pushEntry, grid.entry i hi h (by omega), Option.bind_eq_bind,
            Option.bind_some, List.range_succ, List.map_append, List.map_cons, List.map_nil]
        obtain ⟨v, pushed, rfl⟩ := loop
        rw [if_neg missing, pushed, grown, if_pos (by omega),
          List.take_of_length_le (by simpa using room)]
        exact ⟨_, rfl, by simp, by simp [keptRow]⟩
  obtain ⟨state, ran, -, final⟩ := loop
  refine ⟨state.1, ran.trans ?_⟩
  change some state = some (state.1, ((kept c.length).take k).map (keptRow k c))
  rw [← final]

/-! ## The decoder -/

/-- The kept rows as a system over the field. -/
def keptSystem (k : ℕ) (position : ℕ → ℕ) (value : ℕ → Symbol) : ℕ → ℕ → Symbol :=
  fun a b => if b < k then (Symbol.generator ^ position a) ^ b else value (position a)

/-- A solution of the kept rows is a polynomial with the kept values. -/
theorem keptSystem_solves (k : ℕ) (position : ℕ → ℕ) (value x : ℕ → Symbol) :
    Solves k (keptSystem k position value) x ↔
      ∀ r < k, evaluate k x (position r) = value (position r) := by
  have row (r : ℕ) : ∑ j ∈ range k, keptSystem k position value r j * x j =
      evaluate k x (position r) :=
    sum_congr rfl fun j hj => by rw [keptSystem, if_pos (mem_range.mp hj)]
  have constant (r : ℕ) : keptSystem k position value r k = value (position r) :=
    if_neg (lt_irrefl k)
  simp only [Vanishes, row, constant, one_mul]

/-- The kept rows form a regular system: survivors are different positions below the order of the
generator. -/
theorem keptSystem_regular {k : ℕ} {position : ℕ → ℕ} (value : ℕ → Symbol)
    (short : ∀ r < k, position r < 255)
    (distinct : ∀ r < k, ∀ s < k, position r = position s → r = s) :
    Regular k (keptSystem k position value) :=
  vandermonde_regular (fun r => Symbol.generator ^ position r)
    (fun r hr s hs same => distinct r hr s hs
      (Symbol.generator_pow_injective (short r hr) (short s hs) same))
    (fun _ _ _ hj => if_pos hj)

/-- Survivors are positions of the word. -/
theorem survivors_lt {c : List ℕ} {i : ℕ} (kept : i ∈ survivors c) : i < c.length :=
  List.mem_range.mp (List.mem_filter.mp kept).1

/-- Survivors are listed once each. -/
theorem survivors_nodup (c : List ℕ) : (survivors c).Nodup :=
  List.Nodup.filter _ List.nodup_range

/-- The position of a kept row is a survivor. -/
theorem survivors_getD {c : List ℕ} {r : ℕ} (inside : r < (survivors c).length) :
    (survivors c).getD r 0 ∈ survivors c := by
  rw [List.getD_eq_getElem _ _ inside]
  exact List.getElem_mem inside

/-- Behind its powers a kept row holds the received entry. -/
theorem keptRow_last (k : ℕ) (c : List ℕ) (i : ℕ) : (keptRow k c i)[k]? = some (c.getD i 0) := by
  rw [keptRow, List.getElem?_append_right (by simp)]
  simp

/-- The powers of a kept row. -/
theorem keptRow_power {k j : ℕ} (before : j < k) (c : List ℕ) (i : ℕ) :
    (keptRow k c i)[j]? = some ((Symbol.generator ^ i) ^ j).val := by
  rw [keptRow, List.getElem?_append_left (by simpa using before), List.getElem?_map,
    List.getElem?_range before, Option.map_some]

/-- Different survivors are different positions. -/
theorem survivors_injective {c : List ℕ} {r s : ℕ} (hr : r < (survivors c).length)
    (hs : s < (survivors c).length) (same : (survivors c).getD r 0 = (survivors c).getD s 0) :
    r = s := by
  rw [List.getD_eq_getElem _ _ hr, List.getD_eq_getElem _ _ hs] at same
  exact (List.Nodup.getElem_inj_iff (survivors_nodup c)).mp same

/-- An entry of the rows the decoder keeps. -/
theorem keptRows_readAt {k : ℕ} {c : List ℕ} {r : ℕ} (kept : r < k)
    (inside : r < (survivors c).length) (j : ℕ) :
    readAt (((survivors c).take k).map (keptRow k c)) r j =
      (keptRow k c ((survivors c).getD r 0))[j]? := by
  have chosen : ((survivors c).take k)[r]? = some ((survivors c).getD r 0) := by
    rw [List.getElem?_take_of_lt kept, List.getElem?_eq_getElem inside,
      List.getD_eq_getElem _ _ inside]
  simp only [readAt, List.getElem?_map, chosen, Option.map_some, Option.bind_eq_bind,
    Option.bind_some]

/-- The decoder solves the rows it keeps. -/
theorem decoder_eq {k : ℕ} (n : ℕ) {c : List ℕ} (fits : k ≤ c.length) :
    decoder k n c = (gaussElimination (((survivors c).take k).map (keptRow k c))).map
      (resize · k) := by
  obtain ⟨built, ranBuild, gridBuilt⟩ := buildRow_run c.length
  obtain ⟨count, ranSelect⟩ := selectRow_run fits gridBuilt
  simp only [decoder, ranBuild, ranSelect, Option.bind_eq_bind, Option.bind_some]
  cases gaussElimination (((survivors c).take k).map (keptRow k c)) with
  | none => rfl
  | some answer => rfl

/-- The decoder solves for as many coefficients as it kept rows, with the column behind them as
the constants, and answers the one solution, cut or filled up to `k` entries. -/
theorem decoder_rows (k n : ℕ) (c : List ℕ) (value : ℕ → Symbol) {rows : ℕ}
    (kept : rows = min k (survivors c).length) (short : c.length ≤ 255) (fits : k ≤ c.length)
    (constants : ∀ i ∈ survivors c, (keptRow k c i)[rows]? = some (value i).val) :
    ∃ x : ℕ → Symbol,
      decoder k n c = some (resize ((List.range rows).map fun j => (x j).val) k) ∧
      ∀ y : ℕ → Symbol, (∀ r < rows, evaluate rows y ((survivors c).getD r 0) =
        value ((survivors c).getD r 0)) ↔ ∀ j < rows, y j = x j := by
  let position (r : ℕ) := (survivors c).getD r 0
  have within (r : ℕ) (hr : r < rows) : r < (survivors c).length := by omega
  have system : Grid rows (rows + 1) (((survivors c).take k).map (keptRow k c))
      (keptSystem rows position value) := by
    constructor
    · rw [List.length_map, List.length_take, kept]
    · intro r hr j hj
      rw [keptRows_readAt (by omega) (within r hr), keptSystem]
      by_cases left : j < rows
      · rw [if_pos left, keptRow_power (by omega)]
      · obtain rfl : j = rows := by omega
        rw [if_neg left, constants _ (survivors_getD (within r hr))]
  have regular : Regular rows (keptSystem rows position value) := keptSystem_regular value
    (fun r hr => Nat.lt_of_lt_of_le (survivors_lt (survivors_getD (within r hr))) short)
    (fun r hr s hs same => survivors_injective (within r hr) (within s hs) same)
  obtain ⟨x, ran, solved⟩ := gaussElimination_solves system regular
  refine ⟨x, ?_, fun y => ?_⟩
  · rw [decoder_eq n fits, ran, Option.map_some]
  · rw [← keptSystem_solves rows position]
    constructor
    · intro other
      exact regular.unique other solved
    · intro same
      rw [keptSystem_solves] at solved ⊢
      intro r hr
      rw [← solved r hr]
      exact sum_congr rfl fun j hj => by rw [same j (mem_range.mp hj)]

/-- With at least `k` survivors holding field symbols, the decoder succeeds on the coefficients of
the one polynomial that takes the first `k` surviving values. -/
theorem decoder_solves (k n : ℕ) (c : List ℕ) (value : ℕ → Symbol) (short : c.length ≤ 255)
    (enough : k ≤ (survivors c).length)
    (symbols : ∀ i ∈ survivors c, c.getD i 0 = (value i).val) :
    ∃ x : ℕ → Symbol, decoder k n c = some ((List.range k).map fun j => (x j).val) ∧
      ∀ y : ℕ → Symbol, (∀ r < k, evaluate k y ((survivors c).getD r 0) =
        value ((survivors c).getD r 0)) ↔ ∀ j < k, y j = x j := by
  have fits : k ≤ c.length := by
    apply Nat.le_trans enough
    have bound := List.length_filter_le (fun i => decide (c.getD i 0 ≤ 256)) (List.range c.length)
    simpa [survivors] using bound
  obtain ⟨x, ran, unique⟩ := decoder_rows k n c value (Nat.min_eq_left enough).symm short fits
    (fun i member => by rw [keptRow_last, symbols i member])
  refine ⟨x, ?_, unique⟩
  rw [ran, resize]
  simp [List.take_of_length_le]

/-- A received word: markers at the erased positions, the codeword elsewhere. -/
def erase (erased : Finset ℕ) (marker : ℕ → ℕ) (codeword : List ℕ) : List ℕ :=
  codeword.mapIdx fun i symbol => if i ∈ erased then marker i else symbol

/-- Unsigned integers below 256 are field symbols. -/
theorem symbols_lift {m : List ℕ} (small : ∀ x ∈ m, x < 256) :
    ∃ message : List Symbol, message.map Symbol.val = m :=
  ⟨m.pmap Symbol.mk small, by simp [List.map_pmap]⟩

/-- An erased codeword reads as a marker or as the codeword's own symbol. -/
theorem erase_getD {n : ℕ} {erased : Finset ℕ} {marker : ℕ → ℕ} {value : ℕ → Symbol} {i : ℕ}
    (inside : i < n) :
    (erase erased marker ((List.range n).map fun i => (value i).val)).getD i 0 =
      if i ∈ erased then marker i else (value i).val := by
  simp [erase, List.getD_eq_getElem?_getD, inside]

/-- The survivors of an erased codeword are the positions that were not erased. -/
theorem survivors_erase {n : ℕ} {erased : Finset ℕ} {marker : ℕ → ℕ} (value : ℕ → Symbol)
    (markers : ∀ i ∈ erased, 256 < marker i) :
    survivors (erase erased marker ((List.range n).map fun i => (value i).val)) =
      (List.range n).filter fun i => i ∉ erased := by
  have length : (erase erased marker ((List.range n).map fun i => (value i).val)).length = n := by
    simp [erase]
  rw [survivors, length]
  apply List.filter_congr
  intro i member
  rw [erase_getD (List.mem_range.mp member), decide_eq_decide]
  by_cases gone : i ∈ erased
  · simpa [gone] using markers i gone
  · have small := (value i).lt
    simpa [gone] using Nat.le_of_lt small

/-- Erasure round trip: as long as `k` positions survive, decoding a codeword with any other
positions overwritten by markers returns the message. -/
theorem decoder_erase_dfsEncoder (k n : ℕ) (m : List ℕ) (erased : Finset ℕ) (marker : ℕ → ℕ)
    (ordered : k ≤ n) (short : n ≤ 255) (length : m.length = k) (symbols : ∀ x ∈ m, x < 256)
    (markers : ∀ i ∈ erased, 256 < marker i) (enough : k ≤ (range n \ erased).card) :
    ∃ codeword, dfsEncoder n m = some codeword ∧ codeword.length = n ∧
      decoder k n (erase erased marker codeword) = some m := by
  obtain ⟨message, rfl⟩ := symbols_lift symbols
  rw [List.length_map] at length
  subst length
  let value := evaluate message.length fun j => message.getD j 0
  have kept := survivors_erase (n := n) value markers
  have remaining : ((List.range n).filter fun i => i ∉ erased).length =
      (range n \ erased).card := by
    rw [← List.toFinset_card_of_nodup (List.nodup_range.filter _)]
    congr 1
    ext i
    simp
  refine ⟨_, dfsEncoder_symbols n message ordered, by simp, ?_⟩
  have solved := decoder_solves message.length n
    (erase erased marker ((List.range n).map fun i => (value i).val)) value
    (by simpa [erase] using short) ?first ?step
  case first =>
    rw [kept, remaining]
    exact enough
  case step =>
    intro i member
    rw [kept, List.mem_filter] at member
    rw [erase_getD (List.mem_range.mp member.1), if_neg (by simpa using member.2)]
  obtain ⟨x, decoded, unique⟩ := solved
  have coefficients := (unique fun j => message.getD j 0).mp fun _ _ => rfl
  rw [decoded, Option.some.injEq]
  apply List.ext_getElem (by simp)
  intro j left right
  have inside : j < message.length := by simpa using left
  have entry := coefficients j inside
  simp only [List.getD_eq_getElem?_getD, List.getElem?_eq_getElem inside, Option.getD_some] at entry
  simp [entry]

/-- The second and the last of four positions determine a message of two symbols. -/
theorem decoder_erase_dfsEncoder_two :
    ∃ codeword, dfsEncoder 4 [7, 200] = some codeword ∧ codeword.length = 4 ∧
      decoder 2 4 (erase {0, 2} (fun _ => 290) codeword) = some [7, 200] :=
  decoder_erase_dfsEncoder 2 4 [7, 200] {0, 2} (fun _ => 290) (by decide) (by decide) rfl
    (by decide) (by decide) (by decide)

end TinyTools.Ecc
