import Mathlib

/-!
# Least recently used

Keys with values in the order of their last use. Looking a key up or storing a value under it makes
it the most recent one, and storing keeps the longest end of the order that is not too heavy, so a
key never goes while an older one stays.
-/

namespace TinyTools.Lib

variable {κ ν : Type}

/-- The weight of some entries. -/
def totalWeight (weight : ν → ℕ) (entries : List (κ × ν)) : ℕ :=
  (entries.map fun entry => weight entry.2).sum

/-- The longest end of some entries that is not too heavy. -/
def fitting (weight : ν → ℕ) (max : ℕ) (entries : List (κ × ν)) : List (κ × ν) :=
  (entries.tails.find? fun rest => totalWeight weight rest ≤ max).getD []

/-- What is kept is the longest end of some entries that is not too heavy. -/
structure IsLongestFit (weight : ν → ℕ) (max : ℕ) (entries kept : List (κ × ν)) : Prop where
  /-- It is an end of them. -/
  suffix : kept <:+ entries
  /-- It is not too heavy. -/
  fits : totalWeight weight kept ≤ max
  /-- Every other end that is not too heavy is shorter. -/
  longest : ∀ rest, rest <:+ entries → totalWeight weight rest ≤ max → rest <:+ kept

/-- Keys with their values, the least recently used first. -/
@[ext]
structure Recency (κ ν : Type) where
  /-- The entries in order. -/
  entries : List (κ × ν)
  /-- No key occurs twice. -/
  nodup : (entries.map Prod.fst).Nodup

section

variable {weight : ν → ℕ} {max : ℕ} {entries rest : List (κ × ν)} {entry : κ × ν}

/-! ## The longest end that fits -/

/-- The weight of one entry more. -/
@[simp]
theorem totalWeight_cons (weight : ν → ℕ) (entry : κ × ν) (entries : List (κ × ν)) :
    totalWeight weight (entry :: entries) = weight entry.2 + totalWeight weight entries := rfl

/-- The weight of two parts. -/
theorem totalWeight_append (weight : ν → ℕ) (first second : List (κ × ν)) :
    totalWeight weight (first ++ second) =
      totalWeight weight first + totalWeight weight second := by
  rw [totalWeight, List.map_append, List.sum_append]
  rfl

/-- The first entry stays when everything fits, and goes otherwise. -/
theorem fitting_cons (weight : ν → ℕ) (max : ℕ) (entry : κ × ν) (entries : List (κ × ν)) :
    fitting weight max (entry :: entries) =
      if totalWeight weight (entry :: entries) ≤ max then entry :: entries
      else fitting weight max entries := by
  unfold fitting
  rw [List.tails_cons, List.find?_cons]
  by_cases fits : totalWeight weight (entry :: entries) ≤ max
  · rw [if_pos fits, decide_eq_true fits]
    rfl
  · rw [if_neg fits, decide_eq_false fits]

/-- What fits is left as it is. -/
theorem fitting_of_le (fits : totalWeight weight entries ≤ max) :
    fitting weight max entries = entries := by
  cases entries with
  | nil => rfl
  | cons entry rest => rw [fitting_cons, if_pos fits]

/-- What is left is an end of the entries. -/
theorem fitting_suffix (weight : ν → ℕ) (max : ℕ) (entries : List (κ × ν)) :
    fitting weight max entries <:+ entries := by
  induction entries with
  | nil => exact List.suffix_rfl
  | cons entry rest ih =>
    rw [fitting_cons]
    split_ifs
    · exact List.suffix_rfl
    · exact ih.trans (List.suffix_cons entry rest)

/-- What is left is the longest end that is not too heavy. -/
theorem isLongestFit_fitting (weight : ν → ℕ) (max : ℕ) (entries : List (κ × ν)) :
    IsLongestFit weight max entries (fitting weight max entries) := by
  refine ⟨fitting_suffix weight max entries, ?_, fun rest suffix fits => ?_⟩
  · induction entries with
    | nil => exact Nat.zero_le max
    | cons entry rest ih =>
      rw [fitting_cons]
      split_ifs with fits
      · exact fits
      · exact ih
  · induction entries with
    | nil => exact suffix
    | cons entry others ih =>
      rw [fitting_cons]
      split_ifs with all
      · exact suffix
      · rcases List.suffix_cons_iff.mp suffix with whole | shorter
        · rw [whole] at fits
          exact absurd fits all
        · exact ih shorter

/-- An end weighs no more than the whole. -/
theorem totalWeight_suffix (weight : ν → ℕ) (suffix : rest <:+ entries) :
    totalWeight weight rest ≤ totalWeight weight entries := by
  obtain ⟨front, rfl⟩ := suffix
  rw [totalWeight_append]
  exact Nat.le_add_left _ _

end

namespace Recency

variable {weight : ν → ℕ} {max : ℕ} {r : Recency κ ν} {key other : κ} {value : ν}

/-- Nothing was used yet. -/
def empty : Recency κ ν := ⟨[], List.nodup_nil⟩

/-- Keep the longest end that is not too heavy. -/
def trim (weight : ν → ℕ) (max : ℕ) (r : Recency κ ν) : Recency κ ν where
  entries := fitting weight max r.entries
  nodup := r.nodup.sublist ((fitting_suffix weight max r.entries).sublist.map Prod.fst)

/-- What fits stays. -/
theorem trim_of_le (fits : totalWeight weight r.entries ≤ max) : r.trim weight max = r :=
  Recency.ext (fitting_of_le fits)

variable [DecidableEq κ]

/-- The value under a key. -/
def lookup (r : Recency κ ν) (key : κ) : Option ν :=
  (r.entries.find? fun entry => entry.1 = key).map Prod.snd

/-- The other keys. -/
def without (r : Recency κ ν) (key : κ) : Recency κ ν where
  entries := r.entries.filter fun entry => entry.1 ≠ key
  nodup := r.nodup.sublist (List.filter_sublist.map Prod.fst)

/-- A key is no key of the others. -/
theorem notMem_without (r : Recency κ ν) (key : κ) :
    key ∉ (r.without key).entries.map Prod.fst := by
  intro present
  obtain ⟨entry, inside, same⟩ := List.mem_map.mp present
  have apart := (List.mem_filter.mp inside).2
  exact of_decide_eq_true apart same

/-- A key is the most recent one now. -/
def newest (r : Recency κ ν) (key : κ) (value : ν) : Recency κ ν where
  entries := (r.without key).entries ++ [(key, value)]
  nodup := by
    rw [List.map_append]
    exact (r.without key).nodup.append (List.nodup_singleton key)
      (List.disjoint_singleton.mpr (r.notMem_without key))

/-- Look a key up and make it the most recent one. -/
def touch (r : Recency κ ν) (key : κ) : Recency κ ν :=
  match r.lookup key with
  | none => r
  | some value => r.newest key value

/-- Store a value under a key. -/
def put (weight : ν → ℕ) (max : ℕ) (r : Recency κ ν) (key : κ) (value : ν) : Recency κ ν :=
  (r.newest key value).trim weight max

/-! ## What is stored -/

/-- A key has the value of its entry. -/
theorem lookup_eq_some : r.lookup key = some value ↔ (key, value) ∈ r.entries := by
  unfold lookup
  constructor
  · intro found
    obtain ⟨⟨key', value'⟩, here, rfl⟩ := Option.map_eq_some_iff.mp found
    have same : key' = key := by simpa using List.find?_some here
    rw [← same]
    exact List.mem_of_find?_eq_some here
  · intro inside
    cases here : r.entries.find? fun entry => entry.1 = key with
    | none =>
      have apart := List.find?_eq_none.mp here (key, value) inside
      exact absurd (decide_eq_true rfl) apart
    | some entry =>
      have same : entry.1 = key := by simpa using List.find?_some here
      have member := List.mem_of_find?_eq_some here
      rw [List.inj_on_of_nodup_map r.nodup member inside same]
      rfl

/-- A key that was taken out has no value. -/
theorem lookup_without_self (r : Recency κ ν) (key : κ) : (r.without key).lookup key = none := by
  rw [Option.eq_none_iff_forall_ne_some]
  intro value found
  exact r.notMem_without key (List.mem_map.mpr ⟨_, lookup_eq_some.mp found, rfl⟩)

/-- Taking out a key that is not there changes nothing. -/
theorem without_of_none (none_ : r.lookup key = none) : r.without key = r := by
  apply Recency.ext
  apply List.filter_eq_self.mpr
  intro entry inside
  apply decide_eq_true
  intro same
  have stored : r.lookup key = some entry.2 := lookup_eq_some.mpr (same ▸ inside)
  rw [none_] at stored
  cases stored

/-- The other keys keep their values. -/
theorem lookup_without_ne (r : Recency κ ν) (apart : other ≠ key) :
    (r.without key).lookup other = r.lookup other := by
  ext value
  rw [lookup_eq_some, lookup_eq_some, without, List.mem_filter]
  exact and_iff_left (decide_eq_true apart)

/-- The most recent key has the new value. -/
theorem lookup_newest_self (r : Recency κ ν) (key : κ) (value : ν) :
    (r.newest key value).lookup key = some value :=
  lookup_eq_some.mpr (List.mem_append_right _ List.mem_cons_self)

/-- The other keys keep their values when one becomes the most recent. -/
theorem lookup_newest_ne (r : Recency κ ν) (value : ν) (apart : other ≠ key) :
    (r.newest key value).lookup other = r.lookup other := by
  rw [← lookup_without_ne r apart]
  ext stored
  rw [lookup_eq_some, lookup_eq_some, newest, List.mem_append, List.mem_singleton]
  refine or_iff_left fun same => ?_
  exact apart (congrArg Prod.fst same)

/-- Looking up changes no value. -/
theorem lookup_touch (r : Recency κ ν) (key other : κ) :
    (r.touch key).lookup other = r.lookup other := by
  unfold touch
  cases stored : r.lookup key with
  | none => rfl
  | some value =>
    by_cases here : other = key
    · rw [here, stored]
      exact lookup_newest_self r key value
    · exact lookup_newest_ne r value here

/-- A key that is left when others go has the value it had. -/
theorem lookup_of_trim (found : (r.trim weight max).lookup key = some value) :
    r.lookup key = some value :=
  lookup_eq_some.mpr ((fitting_suffix weight max r.entries).subset (lookup_eq_some.mp found))

/-- A key that is stored after a `put` has the value put or the one it had. -/
theorem lookup_of_put {stored : ν}
    (found : (r.put weight max key value).lookup other = some stored) :
    other = key ∧ stored = value ∨ other ≠ key ∧ r.lookup other = some stored := by
  have before := lookup_of_trim found
  by_cases here : other = key
  · rw [here, lookup_newest_self] at before
    exact Or.inl ⟨here, (Option.some.inj before).symm⟩
  · rw [lookup_newest_ne r value here] at before
    exact Or.inr ⟨here, before⟩

/-! ## Weights -/

/-- Without its oldest key, an order is the rest of it. -/
theorem entries_without_head {rest : List (κ × ν)} (oldest : r.entries = (key, value) :: rest) :
    (r.without key).entries = rest := by
  have distinct := r.nodup
  rw [oldest, List.map_cons] at distinct
  dsimp only [without]
  rw [oldest, List.filter_cons_of_neg (by simp), List.filter_eq_self]
  intro entry inside
  apply decide_eq_true
  intro same
  have listed : entry.1 ∈ rest.map Prod.fst := List.mem_map_of_mem inside
  exact (List.nodup_cons.mp distinct).1 (same ▸ listed)

/-- What is too heavy loses its oldest key. -/
theorem trim_of_lt {rest : List (κ × ν)} (heavy : max < totalWeight weight r.entries)
    (oldest : r.entries = (key, value) :: rest) :
    r.trim weight max = (r.without key).trim weight max := by
  apply Recency.ext
  dsimp only [trim]
  rw [entries_without_head oldest, oldest, fitting_cons, if_neg]
  rw [← oldest]
  exact Nat.not_le_of_lt heavy

/-- A key weighs what its value does. -/
theorem totalWeight_without (weight : ν → ℕ) (stored : r.lookup key = some value) :
    totalWeight weight r.entries =
      weight value + totalWeight weight (r.without key).entries := by
  obtain ⟨front, back, split⟩ := List.append_of_mem (lookup_eq_some.mp stored)
  have distinct := r.nodup
  rw [split, List.map_append, List.map_cons] at distinct
  have absent := List.nodup_middle.mp distinct
  have apart : ∀ entry ∈ front ++ back, entry.1 ≠ key := by
    intro entry inside same
    have listed : entry.1 ∈ front.map Prod.fst ++ back.map Prod.fst := by
      rw [← List.map_append]
      exact List.mem_map_of_mem inside
    exact (List.nodup_cons.mp absent).1 (same ▸ listed)
  have rest : (r.without key).entries = front ++ back := by
    dsimp only [without]
    rw [split, List.filter_append, List.filter_cons_of_neg (by simp), ← List.filter_append]
    exact List.filter_eq_self.mpr fun entry inside => decide_eq_true (apart entry inside)
  rw [rest, split, totalWeight_append, totalWeight_append, totalWeight_cons]
  dsimp only
  omega

/-- The other keys weigh no more than all. -/
theorem totalWeight_without_le (weight : ν → ℕ) (r : Recency κ ν) (key : κ) :
    totalWeight weight (r.without key).entries ≤ totalWeight weight r.entries := by
  have shorter : (r.without key).entries.Sublist r.entries := List.filter_sublist
  exact (shorter.map _).sum_le_sum fun _ _ => Nat.zero_le _

/-- The most recent key adds its weight to the others. -/
theorem totalWeight_newest (weight : ν → ℕ) (r : Recency κ ν) (key : κ) (value : ν) :
    totalWeight weight (r.newest key value).entries =
      totalWeight weight (r.without key).entries + weight value := by
  rw [newest, totalWeight_append]
  rfl

/-- Looking a key up changes no weight. -/
theorem totalWeight_touch (weight : ν → ℕ) (r : Recency κ ν) (key : κ) :
    totalWeight weight (r.touch key).entries = totalWeight weight r.entries := by
  unfold touch
  cases stored : r.lookup key with
  | none => rfl
  | some value =>
    dsimp only
    rw [totalWeight_newest, totalWeight_without weight stored, Nat.add_comm]

/-- Storing a value adds its weight at most. -/
theorem totalWeight_put_le (weight : ν → ℕ) (max : ℕ) (r : Recency κ ν) (key : κ) (value : ν) :
    totalWeight weight (r.put weight max key value).entries ≤
      totalWeight weight r.entries + weight value := by
  have kept := totalWeight_suffix weight (fitting_suffix weight max (r.newest key value).entries)
  have others := totalWeight_without_le weight r key
  rw [totalWeight_newest] at kept
  exact kept.trans (Nat.add_le_add_right others _)

end Recency

end TinyTools.Lib
