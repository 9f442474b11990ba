import Mathlib.Data.List.Basic

/-!
# Counted loops and checked vectors

A counted loop threads one state through a body that may fail, and every vector access is checked
against the current length. A proof about a loop never unfolds it: one invariant rule for each
direction turns "each iteration succeeds and advances the invariant" into "the loop succeeds and
ends with it".
-/

namespace TinyTools.Lib

variable {α σ : Type}

/-- Run the body at `start`, `start + 1`, … for a number of iterations. -/
def iterateUp (body : ℕ → σ → Option σ) : ℕ → ℕ → σ → Option σ
  | 0, _, state => some state
  | count + 1, start, state => (body start state).bind (iterateUp body count (start + 1))

/-- `for (i = low; i < high; i++)`. -/
def forUp (low high : ℕ) (body : ℕ → σ → Option σ) (state : σ) : Option σ :=
  iterateUp body (high - low) low state

/-- `for (i = count - 1; i >= 0; i--)`. -/
def forDown : ℕ → (ℕ → σ → Option σ) → σ → Option σ
  | 0, _, state => some state
  | count + 1, body, state => (body count state).bind (forDown count body)

/-- An invariant indexed by the next iteration passes through a fixed number of iterations. -/
theorem iterateUp_rule (body : ℕ → σ → Option σ) (holds : ℕ → σ → Prop) (count start : ℕ)
    (state : σ) (first : holds start state)
    (step : ∀ i state, start ≤ i → i < start + count → holds i state →
      ∃ next, body i state = some next ∧ holds (i + 1) next) :
    ∃ last, iterateUp body count start state = some last ∧ holds (start + count) last := by
  induction count generalizing start state with
  | zero => exact ⟨state, rfl, first⟩
  | succ count ih =>
    obtain ⟨next, ran, kept⟩ := step start state (Nat.le_refl _) (by omega) first
    obtain ⟨last, finished, final⟩ := ih (start + 1) next kept
      (fun i state above below => step i state (by omega) (by omega))
    refine ⟨last, ?_, by rwa [show start + (count + 1) = start + 1 + count by omega]⟩
    simp only [iterateUp, ran, Option.bind_some, finished]

/-- The invariant rule of an upward loop: every iteration succeeds, so the loop does. -/
theorem forUp_rule (body : ℕ → σ → Option σ) (holds : ℕ → σ → Prop) {low high : ℕ}
    (ordered : low ≤ high) (state : σ) (first : holds low state)
    (step : ∀ i state, low ≤ i → i < high → holds i state →
      ∃ next, body i state = some next ∧ holds (i + 1) next) :
    ∃ last, forUp low high body state = some last ∧ holds high last := by
  obtain ⟨last, ran, final⟩ := iterateUp_rule body holds (high - low) low state first
    (fun i state above below => step i state above (by omega))
  exact ⟨last, ran, by rwa [show low + (high - low) = high by omega] at final⟩

/-- The invariant rule of a downward loop: the index counts the iterations still to run. -/
theorem forDown_rule (body : ℕ → σ → Option σ) (holds : ℕ → σ → Prop) (count : ℕ) (state : σ)
    (first : holds count state)
    (step : ∀ i state, i < count → holds (i + 1) state →
      ∃ next, body i state = some next ∧ holds i next) :
    ∃ last, forDown count body state = some last ∧ holds 0 last := by
  induction count generalizing state with
  | zero => exact ⟨state, rfl, first⟩
  | succ count ih =>
    obtain ⟨next, ran, kept⟩ := step count state (Nat.lt_succ_self _) first
    obtain ⟨last, finished, final⟩ := ih next kept
      (fun i state below => step i state (by omega))
    exact ⟨last, by simp only [forDown, ran, Option.bind_some, finished], final⟩

/-! ## Loops that may fail -/

/-- Where the loop succeeds and every iteration of it is mapped to one of another loop, the other
loop maps its start to its end, along an invariant. -/
theorem forUp_map {body body' : ℕ → σ → Option σ} (map : σ → σ) (holds : σ → Prop) {low high : ℕ}
    (step : ∀ i state next, low ≤ i → i < high → holds state → body i state = some next →
      body' i (map state) = some (map next) ∧ holds next)
    {state last : σ} (first : holds state) (ran : forUp low high body state = some last) :
    forUp low high body' (map state) = some (map last) ∧ holds last := by
  have iterate (count start : ℕ) (above : low ≤ start) (below : start + count ≤ high)
      (state : σ) (first : holds state) (ran : iterateUp body count start state = some last) :
      iterateUp body' count start (map state) = some (map last) ∧ holds last := by
    induction count generalizing start state with
    | zero =>
      obtain rfl := Option.some.inj ran
      exact ⟨rfl, first⟩
    | succ count ih =>
      obtain ⟨next, once, rest⟩ := Option.bind_eq_some_iff.mp ran
      obtain ⟨mapped, kept⟩ := step start state next above (by omega) first once
      rw [iterateUp, mapped, Option.bind_some]
      exact ih (start + 1) (by omega) (by omega) next kept rest
  by_cases ordered : low ≤ high
  · exact iterate (high - low) low (Nat.le_refl low) (by omega) state first ran
  · have none : high - low = 0 := by omega
    unfold forUp at ran ⊢
    rw [none] at ran ⊢
    obtain rfl := Option.some.inj ran
    exact ⟨rfl, first⟩

/-- The invariant rule of a downward loop that succeeds. -/
theorem forDown_some {body : ℕ → σ → Option σ} (holds : ℕ → σ → Prop) {count : ℕ}
    (step : ∀ i state next, i < count → holds (i + 1) state → body i state = some next →
      holds i next)
    {state last : σ} (first : holds count state) (ran : forDown count body state = some last) :
    holds 0 last := by
  induction count generalizing state with
  | zero =>
    obtain rfl := Option.some.inj ran
    exact first
  | succ count ih =>
    obtain ⟨next, once, rest⟩ := Option.bind_eq_some_iff.mp ran
    exact ih (fun i state next below => step i state next (by omega))
      (step count state next (Nat.lt_succ_self count) first once) rest

/-- `v[i] = x` on a vector: a write past the end fails. -/
def store (v : List α) (i : ℕ) (x : α) : Option (List α) :=
  if i < v.length then some (v.set i x) else none

/-- A write inside the vector succeeds. -/
theorem store_inside {v : List α} {i : ℕ} (inside : i < v.length) (x : α) :
    store v i x = some (v.set i x) := if_pos inside

/-- A vector whose first entries are overwritten. -/
def overwrite (v entries : List α) : List α := entries ++ v.drop entries.length

/-- Nothing is overwritten by nothing. -/
@[simp]
theorem overwrite_nil (v : List α) : overwrite v [] = v := rfl

/-- Overwriting keeps the length of a vector with room. -/
theorem length_overwrite {v entries : List α} (room : entries.length ≤ v.length) :
    (overwrite v entries).length = v.length := by
  rw [overwrite, List.length_append, List.length_drop]
  omega

/-- An entry behind others counts one. -/
theorem length_snoc (entries : List α) (x : α) : (entries ++ [x]).length = entries.length + 1 := by
  rw [List.length_append, List.length_singleton]

/-- The write behind the overwritten entries. -/
theorem store_overwrite (v entries : List α) (x : α) :
    store (overwrite v entries) entries.length x =
      if entries.length < v.length then some (overwrite v (entries ++ [x])) else none := by
  unfold store overwrite
  rw [List.length_append, List.length_drop]
  by_cases room : entries.length < v.length
  · have next := List.drop_eq_getElem_cons room
    rw [if_pos room, if_pos (by omega), next, List.set_append_right _ _ (Nat.le_refl _),
      Nat.sub_self, List.set_cons_zero, List.length_append, List.length_singleton,
      List.append_assoc]
    rfl
  · rw [if_neg room, if_neg (by omega)]

/-- The write behind the overwritten entries succeeds where there is room. -/
theorem store_next {v entries : List α} (room : entries.length < v.length) (x : α) :
    store (overwrite v entries) entries.length x = some (overwrite v (entries ++ [x])) := by
  rw [store_overwrite, if_pos room]

/-- An entry behind the overwritten ones keeps the length of a vector with room. -/
theorem length_overwrite_snoc {v entries : List α} (room : entries.length < v.length) (x : α) :
    (overwrite v (entries ++ [x])).length = v.length := by
  apply length_overwrite
  rw [length_snoc]
  exact room

/-- What was written in front. -/
theorem take_overwrite (v entries more : List α) :
    (overwrite v (entries ++ more)).take entries.length = entries := by
  rw [overwrite, List.append_assoc, List.take_left]

/-- The first entries of a vector are the values of a function. -/
def Filled (count : ℕ) (v : List α) (f : ℕ → α) : Prop := ∀ j < count, v[j]? = some (f j)

/-- Nothing is claimed of no entries. -/
theorem Filled.zero (v : List α) (f : ℕ → α) : Filled 0 v f :=
  fun j below => absurd below (Nat.not_lt_zero j)

/-- Writing the next value extends the filled part by one. -/
theorem Filled.store_next {j : ℕ} {v : List α} {f : ℕ → α} (filled : Filled j v f)
    (inside : j < v.length) :
    ∃ next, store v j (f j) = some next ∧ next.length = v.length ∧ Filled (j + 1) next f := by
  refine ⟨_, store_inside inside _, List.length_set, ?_⟩
  intro h below
  rcases Nat.lt_succ_iff_lt_or_eq.mp below with old | rfl
  · rw [List.getElem?_set_ne (by omega)]
    exact filled h old
  · rw [List.getElem?_set_self inside]

/-- A vector filled to its length is the list of the values. -/
theorem Filled.eq_map {count : ℕ} {v : List α} {f : ℕ → α} (filled : Filled count v f)
    (full : v.length = count) : v = (List.range count).map f := by
  apply List.ext_getElem?
  intro j
  rcases Nat.lt_or_ge j count with below | above
  · rw [filled j below, List.getElem?_map, List.getElem?_range below, Option.map_some]
  · rw [List.getElem?_eq_none (by omega), List.getElem?_eq_none (by simpa using above)]

end TinyTools.Lib
