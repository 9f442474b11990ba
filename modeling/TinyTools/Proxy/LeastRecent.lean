import TinyTools.Lib.Recency
import TinyTools.Proxy.CacheInvariant

/-!
# The cache evicts what was used least recently

The recency list of the cache and its map are one order of keys with their instances. Each
operation changes that order as a cache of that kind should: a lookup moves its key to the end, a
`put` adds the new entry there and keeps the longest end that fits. So in every run the cache is
not to be told from the order itself.
-/

namespace TinyTools.Proxy

open TinyTools.Lib

variable (instances : ℕ → CacheInstance)

/-! ## What can be observed -/

/-- The answers of the lookups in a sequence of operations, and the cache behind it. -/
def Cache.observe (c : Cache) : List CacheOp → Except Fault (List (Option ℕ) × Cache)
  | [] => .ok ([], c)
  | .get key :: ops => do
    let (c, found) ← c.get key
    let (answers, c) ← c.observe ops
    return (found :: answers, c)
  | .put key ptr :: ops => do
    let c ← c.put instances key ptr
    c.observe ops

/-- The same for an order of keys that is kept by their last use, the reference. -/
def lru (max : ℕ) (r : Recency Bytes ℕ) : List CacheOp → List (Option ℕ) × Recency Bytes ℕ
  | [] => ([], r)
  | .get key :: ops =>
    let (answers, last) := lru max (r.touch key) ops
    (r.lookup key :: answers, last)
  | .put key ptr :: ops => lru max (r.put (sizeOf instances) max key ptr) ops

/-- The instance an operation puts. -/
def CacheOp.puts : CacheOp → Option ℕ
  | .put _ ptr => some ptr
  | .get _ => none

/-- The instance an operation puts under a key. -/
def CacheOp.putsUnder (key : Bytes) : CacheOp → Option ℕ
  | .put other ptr => if other = key then some ptr else none
  | .get _ => none

/-- The instances that are put. -/
def puts (ops : List CacheOp) : List ℕ := ops.filterMap CacheOp.puts

/-- The instance put last under a key. -/
def newestPut (key : Bytes) (ops : List CacheOp) : Option ℕ :=
  (ops.filterMap (CacheOp.putsUnder key)).getLast?

/-- Every `put` brings a new instance whose sizes agree, and all of them fit in a `size_t`. -/
structure FreshPuts (ops : List CacheOp) : Prop where
  /-- No instance is put twice. -/
  fresh : (puts ops).Nodup
  /-- The assertion of `getTotSize` holds. -/
  asserts : ∀ ptr ∈ puts ops, (instances ptr).Asserts
  /-- The sizes together. -/
  room : ((puts ops).map (sizeOf instances)).sum < 2 ^ 64

/-- The cache holds an order of keys. -/
structure Cache.Holds (c : Cache) (r : Recency Bytes ℕ) : Prop where
  /-- The recency list has the keys in order. -/
  order : c.memoryList.map Prod.snd = r.entries.map Prod.fst
  /-- The map has their instances. -/
  stored : ∀ key, c.memoryMap.lookup key = r.lookup key
  /-- The total is that of the instances. -/
  size : c.cacheSize.toNat = totalWeight (sizeOf instances) r.entries

variable {instances} {c c' : Cache} {r : Recency Bytes ℕ} {key : Bytes} {ptr node : ℕ}

/-! ## One change -/

/-- The node of a key is the only one with that key. -/
theorem Cache.Consistent.filter_node (consistent : c.Consistent instances)
    (inside : (node, key) ∈ c.memoryList) :
    (c.memoryList.filter fun entry => entry.1 ≠ node).map Prod.snd =
      (c.memoryList.map Prod.snd).filter fun other => other ≠ key := by
  rw [List.filter_map]
  congr 1
  apply List.filter_congr
  intro entry member
  simp only [Function.comp_apply, decide_eq_decide]
  constructor
  · intro apart same
    exact apart (consistent.node_unique (same ▸ member) inside)
  · intro apart same
    exact apart (consistent.key_unique (same ▸ member) inside)

/-- An entry is taken out. -/
theorem Cache.Holds.without (holds : c.Holds instances r) (consistent : c.Consistent instances)
    (stored : c.memoryMap.lookup key = some ptr) (inside : (node, key) ∈ c.memoryList) :
    (c.without key node (instances ptr).totSize).Holds instances (r.without key) where
  order := by
    have listed := consistent.filter_node inside
    rw [holds.order, List.filter_map] at listed
    exact listed
  stored other := by
    by_cases here : other = key
    · rw [here, r.lookup_without_self key]
      exact AList.lookup_erase key c.memoryMap
    · rw [r.lookup_without_ne here, ← holds.stored other]
      exact AList.lookup_erase_ne here
  size := by
    have part := consistent.size_le stored
    have split := Recency.totalWeight_without (sizeOf instances)
      ((holds.stored key).symm.trans stored)
    rw [Cache.without, UInt64.toNat_sub_of_le _ _ part, holds.size, split, sizeOf,
      Nat.add_sub_cancel_left]

/-- An entry is added to the others. -/
theorem Cache.Holds.withEntry (holds : c.Holds instances (r.without key))
    (room : totalWeight (sizeOf instances) (r.without key).entries + sizeOf instances ptr <
      2 ^ 64) :
    (c.withEntry key ptr (instances ptr).totSize).Holds instances (r.newest key ptr) where
  order := by
    simp only [Cache.withEntry, Cache.pushBack, Recency.newest, List.map_append, holds.order,
      List.map_cons, List.map_nil]
  stored other := by
    by_cases here : other = key
    · rw [here, r.lookup_newest_self key ptr]
      exact AList.lookup_insert c.memoryMap
    · rw [r.lookup_newest_ne ptr here, ← r.lookup_without_ne here, ← holds.stored other]
      exact AList.lookup_insert_ne here
  size := by
    have bound : c.cacheSize.toNat + (instances ptr).totSize.toNat < 2 ^ 64 := by
      rw [holds.size]
      exact room
    rw [Recency.totalWeight_newest, ← holds.size]
    change (c.cacheSize + (instances ptr).totSize).toNat = _
    rw [UInt64.toNat_add, Nat.mod_eq_of_lt bound, sizeOf]

/-- An entry is moved to the end. -/
theorem Cache.Holds.touched (holds : c.Holds instances r) (consistent : c.Consistent instances)
    (stored : c.memoryMap.lookup key = some ptr) (inside : (node, key) ∈ c.memoryList) :
    (c.touched key ptr node).Holds instances (r.newest key ptr) where
  order := by
    have rest := (holds.without consistent stored inside).order
    simp only [Cache.without] at rest
    simp only [Cache.touched, Cache.pushBack, Recency.newest, List.map_append, rest,
      List.map_cons, List.map_nil]
  stored other := by
    by_cases here : other = key
    · rw [here, r.lookup_newest_self key ptr]
      exact stored
    · rw [r.lookup_newest_ne ptr here]
      exact holds.stored other
  size := by
    have split := Recency.totalWeight_without (sizeOf instances)
      ((holds.stored key).symm.trans stored)
    rw [Recency.totalWeight_newest, Nat.add_comm, ← split]
    exact holds.size

/-! ## The operations -/

/-- A lookup answers what the order holds and moves the key to its end. -/
theorem Cache.Holds.get (holds : c.Holds instances r) (consistent : c.Consistent instances)
    (key : Bytes) :
    ∃ c', c.get key = .ok (c', r.lookup key) ∧ c'.Holds instances (r.touch key) := by
  rw [← holds.stored key]
  unfold Recency.touch
  rw [← holds.stored key]
  cases stored : c.memoryMap.lookup key with
  | none => exact ⟨c, by simp only [Cache.get, stored], holds⟩
  | some ptr =>
    obtain ⟨node, points, inside⟩ := consistent.iterators key ptr stored
    have listed : node ∈ c.memoryList.map Prod.fst := List.mem_map.mpr ⟨_, inside, rfl⟩
    refine ⟨c.touched key ptr node, ?_, holds.touched consistent stored inside⟩
    simp only [Cache.get, stored, points, Cache.eraseNode_listed listed, bind, Except.bind]
    rfl

/-- The eviction loop leaves the longest end that fits. -/
theorem Cache.Holds.evict (rounds : ℕ) (holds : c.Holds instances r)
    (consistent : c.Consistent instances) (ran : c.evict instances rounds = .ok c') :
    c'.Holds instances (r.trim (sizeOf instances) c.cacheMaxSize.toNat) := by
  have stays {c : Cache} {r : Recency Bytes ℕ} (holds : c.Holds instances r)
      (within : ¬ c.cacheSize > c.cacheMaxSize) :
      c.Holds instances (r.trim (sizeOf instances) c.cacheMaxSize.toNat) := by
    rw [Recency.trim_of_le]
    · exact holds
    · rw [← holds.size]
      exact UInt64.le_iff_toNat_le.mp (UInt64.not_lt.mp within)
  induction rounds generalizing c r with
  | zero =>
    unfold Cache.evict at ran
    split_ifs at ran with above
    rw [← Except.ok.inj ran]
    exact stays holds above
  | succ rounds ih =>
    unfold Cache.evict at ran
    split_ifs at ran with above
    · cases listed : c.memoryList with
      | nil =>
        rw [listed] at ran
        cases ran
      | cons entry others =>
        obtain ⟨node, key⟩ := entry
        rw [listed] at ran
        have inside : (node, key) ∈ c.memoryList := listed ▸ List.mem_cons_self
        obtain ⟨ptr, stored, erased⟩ := consistent.eraseList inside
        simp only [erased, Except.bind] at ran
        have rest := holds.without consistent stored inside
        have order := holds.order
        rw [listed, List.map_cons] at order
        obtain ⟨⟨oldest, value⟩, later, entries⟩ : ∃ first later, r.entries = first :: later := by
          apply List.exists_cons_of_ne_nil
          intro empty
          rw [empty] at order
          cases order
        have same : key = oldest := by
          rw [entries, List.map_cons] at order
          exact (List.cons.inj order).1
        have heavy : c.cacheMaxSize.toNat < totalWeight (sizeOf instances) r.entries := by
          rw [← holds.size]
          exact UInt64.lt_iff_toNat_lt.mp above
        have kept := ih rest (consistent.without stored inside) ran
        rw [Recency.trim_of_lt heavy entries, ← same]
        exact kept
    · rw [← Except.ok.inj ran]
      exact stays holds above

/-- What `put` does first leaves the other keys. -/
theorem Cache.Holds.clear (holds : c.Holds instances r) (consistent : c.Consistent instances)
    (ran : c.clear instances key = .ok c') : c'.Holds instances (r.without key) := by
  unfold Cache.clear at ran
  cases stored : c.memoryMap.lookup key with
  | none =>
    rw [stored] at ran
    rw [← Except.ok.inj ran, Recency.without_of_none ((holds.stored key).symm.trans stored)]
    exact holds
  | some old =>
    rw [stored] at ran
    obtain ⟨node, inside, erased⟩ := consistent.eraseMap stored
    rw [← Except.ok.inj (erased.symm.trans ran)]
    exact holds.without consistent stored inside

/-- The other keys of the map weigh what those of the order do. -/
theorem Cache.Holds.totalSize_erase (holds : c.Holds instances r)
    (consistent : c.Consistent instances) (key : Bytes) :
    totalSize instances (c.memoryMap.erase key) =
      totalWeight (sizeOf instances) (r.without key).entries := by
  obtain ⟨cleared, ran, consistent', map, -⟩ := consistent.clear key
  rw [← map, ← consistent'.total]
  exact (holds.clear consistent ran).size

/-- A `put` of a new instance stores it at the end and keeps the longest end that fits. -/
theorem Cache.Holds.put (holds : c.Holds instances r) (consistent : c.Consistent instances)
    (admissible : (CacheOp.put key ptr).Admissible instances c)
    (ran : c.put instances key ptr = .ok c') :
    c'.Holds instances (r.put (sizeOf instances) c.cacheMaxSize.toNat key ptr) := by
  obtain ⟨cleared, began, grown, replaced, max⟩ := consistent.replace admissible
  have others := holds.clear consistent began
  obtain ⟨-, -, room⟩ := admissible
  rw [holds.totalSize_erase consistent] at room
  rw [replaced] at ran
  have kept := (others.withEntry room).evict _ grown ran
  rw [← max]
  exact kept

/-! ## Runs -/

/-- Lookups in an admissible sequence of operations are answered as by the reference. -/
theorem Cache.Holds.observe (ops : List CacheOp) (holds : c.Holds instances r)
    (consistent : c.Consistent instances) (admitted : c.Admits instances ops) :
    ∃ c', c.observe instances ops = .ok ((lru instances c.cacheMaxSize.toNat r ops).1, c') ∧
      c'.Consistent instances ∧
        c'.Holds instances (lru instances c.cacheMaxSize.toNat r ops).2 := by
  induction ops generalizing c r with
  | nil => exact ⟨c, rfl, consistent, holds⟩
  | cons op ops ih =>
    obtain ⟨next, ran, consistent', max, -⟩ := consistent.apply admitted.1
    have later := admitted.2 next ran
    cases op with
    | get key =>
      obtain ⟨touched, answered, holds'⟩ := holds.get consistent key
      have same : touched = next := by
        rw [Cache.apply, answered] at ran
        exact Except.ok.inj ran
      rw [same] at answered holds'
      obtain ⟨last, observed, final⟩ := ih holds' consistent' later
      rw [max] at observed final
      refine ⟨last, ?_, final⟩
      simp only [Cache.observe, answered, bind, Except.bind, observed]
      rfl
    | put key ptr =>
      have holds' := holds.put consistent admitted.1 ran
      obtain ⟨last, observed, final⟩ := ih holds' consistent' later
      rw [max] at observed final
      refine ⟨last, ?_, final⟩
      have stored : c.put instances key ptr = .ok next := ran
      simp only [Cache.observe, stored, bind, Except.bind, observed]
      rfl

/-- New instances that fit together are admissible in every cache that holds none of them. -/
theorem Cache.Holds.admits (ops : List CacheOp) (holds : c.Holds instances r)
    (consistent : c.Consistent instances)
    (unused : ∀ key ptr, c.memoryMap.lookup key = some ptr → ptr ∉ puts ops)
    (fresh : (puts ops).Nodup) (asserts : ∀ ptr ∈ puts ops, (instances ptr).Asserts)
    (room : totalWeight (sizeOf instances) r.entries +
      ((puts ops).map (sizeOf instances)).sum < 2 ^ 64) : c.Admits instances ops := by
  induction ops generalizing c r with
  | nil => trivial
  | cons op ops ih =>
    cases op with
    | get key =>
      refine ⟨trivial, fun next ran => ?_⟩
      obtain ⟨touched, answered, holds'⟩ := holds.get consistent key
      have plain : (CacheOp.get key).Admissible instances c := trivial
      obtain ⟨next', ran', consistent', -⟩ := consistent.apply plain
      have same : touched = next := by
        rw [Cache.apply, answered] at ran
        exact Except.ok.inj ran
      have same' : next' = next := Except.ok.inj (ran'.symm.trans ran)
      rw [same] at holds' answered
      rw [same'] at consistent'
      have map := (Cache.get_ok answered).1
      apply ih holds' consistent' _ fresh asserts
      · rw [Recency.totalWeight_touch]
        exact room
      · intro key' ptr stored
        rw [map] at stored
        exact unused key' ptr stored
    | put key ptr =>
      obtain ⟨new, fresh'⟩ := List.nodup_cons.mp (show (ptr :: puts ops).Nodup from fresh)
      have bound : totalWeight (sizeOf instances) r.entries + (sizeOf instances ptr +
          ((puts ops).map (sizeOf instances)).sum) < 2 ^ 64 := room
      have sound := asserts ptr List.mem_cons_self
      have admissible : (CacheOp.put key ptr).Admissible instances c := by
        refine ⟨fun other stored => ?_, sound, ?_⟩
        · exact absurd List.mem_cons_self (unused other ptr stored)
        · rw [holds.totalSize_erase consistent]
          have others := Recency.totalWeight_without_le (sizeOf instances) r key
          omega
      refine ⟨admissible, fun next ran => ?_⟩
      obtain ⟨next', ran', consistent', -⟩ := consistent.apply admissible
      have same : next' = next := Except.ok.inj (ran'.symm.trans ran)
      rw [same] at consistent'
      have holds' := holds.put consistent admissible ran
      apply ih holds' consistent' _ fresh' fun other inside =>
        asserts other (List.mem_cons_of_mem ptr inside)
      · have heavier := Recency.totalWeight_put_le (sizeOf instances) c.cacheMaxSize.toNat r key ptr
        omega
      · intro key' ptr' stored
        rcases Cache.put_map ran stored with ⟨-, same⟩ | ⟨-, old⟩
        · rwa [same]
        · exact fun inside => unused key' ptr' old (List.mem_cons_of_mem ptr inside)

/-- The answers behind more operations. -/
theorem lru_append (instances : ℕ → CacheInstance) (max : ℕ) (r : Recency Bytes ℕ)
    (before after : List CacheOp) :
    lru instances max r (before ++ after) =
      ((lru instances max r before).1 ++ (lru instances max (lru instances max r before).2 after).1,
        (lru instances max (lru instances max r before).2 after).2) := by
  induction before generalizing r with
  | nil => rfl
  | cons op rest ih =>
    cases op with
    | get key => simp only [List.cons_append, lru, ih]
    | put key ptr => simp only [List.cons_append, lru, ih]

/-- What the reference holds under a key was put there last, or was there before. -/
theorem lru_newestPut (instances : ℕ → CacheInstance) (max : ℕ) (ops : List CacheOp)
    {r : Recency Bytes ℕ} (found : (lru instances max r ops).2.lookup key = some ptr) :
    newestPut key ops = some ptr ∨ newestPut key ops = none ∧ r.lookup key = some ptr := by
  induction ops generalizing r with
  | nil => exact Or.inr ⟨rfl, found⟩
  | cons op ops ih =>
    cases op with
    | get other =>
      have later : newestPut key ops = some ptr ∨ newestPut key ops = none ∧
          (r.touch other).lookup key = some ptr := ih found
      rw [Recency.lookup_touch] at later
      exact later
    | put other stored =>
      rcases ih found with newer | ⟨none, before⟩
      · refine Or.inl ?_
        unfold newestPut at newer ⊢
        rw [List.filterMap_cons]
        split
        · exact newer
        · rw [List.getLast?_cons, newer]
          rfl
      · unfold newestPut at none ⊢
        rw [List.getLast?_eq_none_iff] at none
        rw [List.filterMap_cons, none]
        rcases Recency.lookup_of_put before with ⟨same, value⟩ | ⟨apart, old⟩
        · refine Or.inl ?_
          simp only [CacheOp.putsUnder, if_pos same.symm, value, List.getLast?_singleton]
        · refine Or.inr ⟨?_, old⟩
          simp only [CacheOp.putsUnder, if_neg (Ne.symm apart), List.getLast?_nil]

/-- Nothing is in the empty cache. -/
theorem Cache.new_holds (instances : ℕ → CacheInstance) (max : UInt64) :
    (Cache.new max).Holds instances Recency.empty where
  order := rfl
  stored key := AList.lookup_empty key
  size := rfl

/-- In every run of lookups and of `put`s of new instances, the cache answers as the reference does
and holds its keys in its order, each with the instance put last under it. A `put` leaves the
longest end of the order, with the new key last, whose total is within the maximum. -/
theorem cache_refines_lru (instances : ℕ → CacheInstance) (max : UInt64) (ops : List CacheOp)
    (fresh : FreshPuts instances ops) :
    ∃ c, (Cache.new max).observe instances ops =
        .ok ((lru instances max.toNat Recency.empty ops).1, c) ∧
      c.Holds instances (lru instances max.toNat Recency.empty ops).2 ∧
        (∀ key ptr, c.memoryMap.lookup key = some ptr → newestPut key ops = some ptr) ∧
          ∀ before key ptr, ops = before ++ [.put key ptr] →
            IsLongestFit (sizeOf instances) max.toNat
              ((lru instances max.toNat Recency.empty before).2.newest key ptr).entries
              (lru instances max.toNat Recency.empty ops).2.entries := by
  have consistent : (Cache.new max).Consistent instances := Cache.new_consistent max
  have holds := Cache.new_holds instances max
  have room : totalWeight (sizeOf instances) (Recency.empty : Recency Bytes ℕ).entries +
      ((puts ops).map (sizeOf instances)).sum < 2 ^ 64 := by
    rw [show totalWeight (sizeOf instances) (Recency.empty : Recency Bytes ℕ).entries = 0 from rfl,
      Nat.zero_add]
    exact fresh.room
  have admitted := holds.admits ops consistent
    (fun key ptr stored => by cases stored) fresh.fresh fresh.asserts room
  obtain ⟨c, observed, -, final⟩ := holds.observe ops consistent admitted
  refine ⟨c, observed, final, fun key ptr stored => ?_, fun before key ptr last => ?_⟩
  · have found := (final.stored key).symm.trans stored
    rcases lru_newestPut instances max.toNat ops found with newest | ⟨-, empty⟩
    · exact newest
    · cases empty
  · rw [last, lru_append]
    exact isLongestFit_fitting _ _ _

/-- Two instances that do not both fit, the first one looked up in between. -/
theorem cache_refines_lru_small : ∃ c, (Cache.new 3).observe smallInstance smallRun =
      .ok ((lru smallInstance 3 Recency.empty smallRun).1, c) ∧
    c.Holds smallInstance (lru smallInstance 3 Recency.empty smallRun).2 ∧
      (∀ key ptr, c.memoryMap.lookup key = some ptr → newestPut key smallRun = some ptr) ∧
        ∀ before key ptr, smallRun = before ++ [.put key ptr] →
          IsLongestFit (sizeOf smallInstance) 3
            ((lru smallInstance 3 Recency.empty before).2.newest key ptr).entries
            (lru smallInstance 3 Recency.empty smallRun).2.entries := by
  have fresh : FreshPuts smallInstance smallRun := by
    constructor
    · decide
    · intro ptr _
      exact Or.inl rfl
    · decide
  exact cache_refines_lru smallInstance 3 smallRun fresh

end TinyTools.Proxy
