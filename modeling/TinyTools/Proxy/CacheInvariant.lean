import TinyTools.Proxy.Cache

/-!
# The cache keeps its three structures in step

The map, the recency list and the iterators describe the same entries, and the running total is the
sum of the sizes. Taking an entry out is one change of all of them, whichever of the two `erase`
functions does it; adding one is another.
-/

namespace TinyTools.Proxy

open TinyTools.Lib

variable (instances : ℕ → CacheInstance)

/-- The size of the instance at a pointer. -/
def sizeOf (ptr : ℕ) : ℕ := (instances ptr).totSize.toNat

/-- The sum of the sizes over a map. -/
def totalSize (memoryMap : AList fun _ : Bytes => ℕ) : ℕ :=
  (memoryMap.entries.map fun entry => sizeOf instances entry.2).sum

/-- The map, the list, the iterators and the total agree. -/
structure Cache.Consistent (c : Cache) : Prop where
  /-- No two nodes of the list are the same. -/
  nodes : (c.memoryList.map Prod.fst).Nodup
  /-- New nodes are not in the list. -/
  fresh : ∀ node ∈ c.memoryList, node.1 < c.nextNode
  /-- No key is in the list twice. -/
  keys : (c.memoryList.map Prod.snd).Nodup
  /-- The list holds exactly the keys of the map. -/
  same : ∀ key, key ∈ c.memoryList.map Prod.snd ↔ key ∈ c.memoryMap
  /-- The iterator of a stored instance designates the node of its key. -/
  iterators : ∀ key ptr, c.memoryMap.lookup key = some ptr →
    ∃ node, c.iterator ptr = some node ∧ (node, key) ∈ c.memoryList
  /-- The assertion holds for every stored instance. -/
  asserts : ∀ key ptr, c.memoryMap.lookup key = some ptr → (instances ptr).Asserts
  /-- The running total is the sum of the sizes. -/
  total : c.cacheSize.toNat = totalSize instances c.memoryMap

variable {instances} {c : Cache} {key other : Bytes} {ptr node : ℕ}

/-- Taking a key out of the map takes the size of its instance from the sum. -/
theorem totalSize_erase {memoryMap : AList fun _ : Bytes => ℕ}
    (stored : memoryMap.lookup key = some ptr) :
    totalSize instances memoryMap =
      sizeOf instances ptr + totalSize instances (memoryMap.erase key) := by
  have present : key ∈ memoryMap.entries.keys :=
    AList.mem_keys.mp (AList.lookup_isSome.mp (stored ▸ rfl))
  obtain ⟨value, before, after, -, split, rest⟩ := List.exists_of_kerase present
  have same : value = ptr := by
    have inside : (⟨key, value⟩ : Sigma fun _ : Bytes => ℕ) ∈ memoryMap.entries := by
      rw [split]
      exact List.mem_append_right _ List.mem_cons_self
    exact Option.mem_unique (AList.mem_lookup_iff.mpr inside) stored
  subst same
  have erased : (memoryMap.erase key).entries = before ++ after := rest
  rw [totalSize, totalSize, erased, split]
  simp only [List.map_append, List.map_cons, List.sum_append, List.sum_cons]
  omega

/-- Putting a new key into the map adds the size of its instance. -/
theorem totalSize_insert {memoryMap : AList fun _ : Bytes => ℕ} (absent : key ∉ memoryMap) :
    totalSize instances (memoryMap.insert key ptr) =
      sizeOf instances ptr + totalSize instances memoryMap := by
  rw [totalSize, AList.entries_insert_of_notMem absent, List.map_cons, List.sum_cons, totalSize]

namespace Cache.Consistent

/-- A key has one node. -/
theorem node_unique (consistent : c.Consistent instances) {first second : ℕ}
    (left : (first, key) ∈ c.memoryList) (right : (second, key) ∈ c.memoryList) :
    first = second :=
  congrArg Prod.fst (List.inj_on_of_nodup_map consistent.keys left right rfl)

/-- A node has one key. -/
theorem key_unique (consistent : c.Consistent instances)
    (left : (node, key) ∈ c.memoryList) (right : (node, other) ∈ c.memoryList) : key = other :=
  congrArg Prod.snd (List.inj_on_of_nodup_map consistent.nodes left right rfl)

/-- An instance is stored under one key. -/
theorem stored_once (consistent : c.Consistent instances)
    (left : c.memoryMap.lookup key = some ptr) (right : c.memoryMap.lookup other = some ptr) :
    key = other := by
  obtain ⟨first, points, inside⟩ := consistent.iterators key ptr left
  obtain ⟨second, points', inside'⟩ := consistent.iterators other ptr right
  obtain rfl := Option.some.inj (points.symm.trans points')
  exact consistent.key_unique inside inside'

/-- The size of a stored instance is part of the total. -/
theorem size_le (consistent : c.Consistent instances)
    (stored : c.memoryMap.lookup key = some ptr) :
    (instances ptr).totSize ≤ c.cacheSize := by
  have split := @totalSize_erase instances key ptr _ stored
  rw [UInt64.le_iff_toNat_le, consistent.total, split]
  exact Nat.le_add_right _ _

end Cache.Consistent

/-- The cache without one entry. -/
def Cache.without (c : Cache) (key : Bytes) (node : ℕ) (size : UInt64) : Cache :=
  { c with
    cacheSize := c.cacheSize - size
    memoryList := c.memoryList.filter fun entry => entry.1 ≠ node
    memoryMap := c.memoryMap.erase key }

/-- Taking out the entry of a node. -/
theorem Cache.Consistent.without (consistent : c.Consistent instances)
    (stored : c.memoryMap.lookup key = some ptr) (inside : (node, key) ∈ c.memoryList) :
    (c.without key node (instances ptr).totSize).Consistent instances := by
  have kept {entry : ℕ × Bytes} (member : entry ∈ c.memoryList) :
      entry ∈ (c.without key node (instances ptr).totSize).memoryList ↔ entry.2 ≠ key := by
    rw [Cache.without, List.mem_filter, decide_eq_true_eq]
    constructor
    · rintro ⟨-, apart⟩ same
      exact apart (consistent.node_unique (same ▸ member) inside)
    · intro apart
      exact ⟨member, fun same => apart (consistent.key_unique (same ▸ member) inside)⟩
  refine ⟨?_, ?_, ?_, ?_, ?_, ?_, ?_⟩
  · exact consistent.nodes.sublist ((List.filter_sublist).map _)
  · exact fun entry member => consistent.fresh entry (List.mem_of_mem_filter member)
  · exact consistent.keys.sublist ((List.filter_sublist).map _)
  · intro key'
    rw [Cache.without, AList.mem_erase, ← consistent.same]
    constructor
    · intro listed
      obtain ⟨entry, member, rfl⟩ := List.mem_map.mp listed
      have old := List.mem_of_mem_filter member
      exact ⟨(kept old).mp member, List.mem_map.mpr ⟨entry, old, rfl⟩⟩
    · rintro ⟨apart, listed⟩
      obtain ⟨entry, old, rfl⟩ := List.mem_map.mp listed
      exact List.mem_map.mpr ⟨entry, (kept old).mpr apart, rfl⟩
  · intro key' ptr' stored'
    have apart : key' ≠ key := by
      rintro rfl
      rw [Cache.without, AList.lookup_erase] at stored'
      cases stored'
    rw [Cache.without, AList.lookup_erase_ne apart] at stored'
    obtain ⟨node', points, old⟩ := consistent.iterators key' ptr' stored'
    exact ⟨node', points, (kept old).mpr apart⟩
  · intro key' ptr' stored'
    apply consistent.asserts key' ptr'
    have apart : key' ≠ key := by
      rintro rfl
      rw [Cache.without, AList.lookup_erase] at stored'
      cases stored'
    rwa [Cache.without, AList.lookup_erase_ne apart] at stored'
  · have split := @totalSize_erase instances key ptr _ stored
    have part := consistent.size_le stored
    rw [Cache.without, UInt64.toNat_sub_of_le _ _ part, consistent.total, split, sizeOf,
      Nat.add_sub_cancel_left]

/-- A new node for a key that is not listed keeps the nodes and the keys of the list apart. -/
theorem Cache.pushBack_listed {c : Cache} (nodes : (c.memoryList.map Prod.fst).Nodup)
    (fresh : ∀ entry ∈ c.memoryList, entry.1 < c.nextNode)
    (keys : (c.memoryList.map Prod.snd).Nodup) (unlisted : key ∉ c.memoryList.map Prod.snd) :
    ((c.pushBack key ptr).memoryList.map Prod.fst).Nodup ∧
      (∀ entry ∈ (c.pushBack key ptr).memoryList, entry.1 < (c.pushBack key ptr).nextNode) ∧
        ((c.pushBack key ptr).memoryList.map Prod.snd).Nodup := by
  have unnumbered : c.nextNode ∉ c.memoryList.map Prod.fst := by
    intro numbered
    obtain ⟨entry, member, same⟩ := List.mem_map.mp numbered
    exact absurd (fresh entry member) (by omega)
  refine ⟨?_, ?_, ?_⟩
  · simp only [pushBack, List.map_append, List.map_cons, List.map_nil]
    exact (List.nodup_append_comm.mp (List.nodup_cons.mpr ⟨unnumbered, nodes⟩ :
      ([c.nextNode] ++ c.memoryList.map Prod.fst).Nodup))
  · intro entry member
    rcases List.mem_append.mp member with old | new
    · exact Nat.lt_succ_of_lt (fresh entry old)
    · rw [List.mem_singleton.mp new]
      exact Nat.lt_succ_self _
  · simp only [pushBack, List.map_append, List.map_cons, List.map_nil]
    exact (List.nodup_append_comm.mp (List.nodup_cons.mpr ⟨unlisted, keys⟩ :
      ([key] ++ c.memoryList.map Prod.snd).Nodup))

/-- The cache with one new entry, at the end of the list. -/
def Cache.withEntry (c : Cache) (key : Bytes) (ptr : ℕ) (size : UInt64) : Cache :=
  { c.pushBack key ptr with
    cacheSize := c.cacheSize + size
    memoryMap := c.memoryMap.insert key ptr }

/-- Adding an entry for a new key and a new instance. -/
theorem Cache.Consistent.withEntry (consistent : c.Consistent instances)
    (absent : key ∉ c.memoryMap)
    (unused : ∀ other, c.memoryMap.lookup other ≠ some ptr) (sound : (instances ptr).Asserts)
    (room : totalSize instances c.memoryMap + sizeOf instances ptr < 2 ^ 64) :
    (c.withEntry key ptr (instances ptr).totSize).Consistent instances := by
  have unlisted : key ∉ c.memoryList.map Prod.snd := fun listed =>
    absent ((consistent.same key).mp listed)
  obtain ⟨nodes, fresh, keys⟩ := @Cache.pushBack_listed _ ptr c consistent.nodes consistent.fresh
    consistent.keys unlisted
  have lookup_of {key' : Bytes} {ptr' : ℕ}
      (stored : (c.memoryMap.insert key ptr).lookup key' = some ptr') :
      (key' = key ∧ ptr' = ptr) ∨ (key' ≠ key ∧ c.memoryMap.lookup key' = some ptr') := by
    by_cases here : key' = key
    · subst here
      rw [AList.lookup_insert] at stored
      exact Or.inl ⟨rfl, (Option.some.inj stored).symm⟩
    · rw [AList.lookup_insert_ne here] at stored
      exact Or.inr ⟨here, stored⟩
  refine ⟨nodes, fresh, keys, ?_, ?_, ?_, ?_⟩
  · intro key'
    simp only [Cache.withEntry, pushBack, List.map_append, List.map_cons, List.map_nil,
      List.mem_append, List.mem_singleton, AList.mem_insert, consistent.same]
    exact or_comm
  · intro key' ptr' stored
    rcases lookup_of stored with ⟨rfl, rfl⟩ | ⟨apart, old⟩
    · exact ⟨c.nextNode, Function.update_self ..,
        List.mem_append_right _ (List.mem_singleton.mpr rfl)⟩
    · obtain ⟨node, points, member⟩ := consistent.iterators key' ptr' old
      have other : ptr' ≠ ptr := fun same => unused key' (same ▸ old)
      exact ⟨node, (Function.update_of_ne other ..).trans points, List.mem_append_left _ member⟩
  · intro key' ptr' stored
    rcases lookup_of stored with ⟨-, rfl⟩ | ⟨-, old⟩
    · exact sound
    · exact consistent.asserts key' ptr' old
  · have bound : c.cacheSize.toNat + (instances ptr).totSize.toNat < 2 ^ 64 := by
      rw [consistent.total]
      exact room
    change (c.cacheSize + (instances ptr).totSize).toNat =
      totalSize instances (c.memoryMap.insert key ptr)
    rw [totalSize_insert absent, UInt64.toNat_add, Nat.mod_eq_of_lt bound, consistent.total, sizeOf,
      Nat.add_comm]

/-- The cache with one entry moved to the end of the list. -/
def Cache.touched (c : Cache) (key : Bytes) (ptr node : ℕ) : Cache :=
  { c with memoryList := c.memoryList.filter fun entry => entry.1 ≠ node }.pushBack key ptr

/-- Moving an entry to the end of the list. -/
theorem Cache.Consistent.touched (consistent : c.Consistent instances)
    (stored : c.memoryMap.lookup key = some ptr) (inside : (node, key) ∈ c.memoryList) :
    (c.touched key ptr node).Consistent instances := by
  -- an entry taken out and added again: only the list and one iterator differ
  have removed := consistent.without stored inside
  have absent : key ∉ c.memoryMap.erase key := fun present => (AList.mem_erase.mp present).1 rfl
  have unlisted : key ∉ (c.memoryList.filter fun entry => entry.1 ≠ node).map Prod.snd :=
    fun listed => absent ((removed.same key).mp listed)
  obtain ⟨nodes, fresh, keys⟩ := @Cache.pushBack_listed _ ptr
    { c with memoryList := c.memoryList.filter fun entry => entry.1 ≠ node } removed.nodes
    removed.fresh removed.keys unlisted
  have present : key ∈ c.memoryMap := AList.lookup_isSome.mp (stored ▸ rfl)
  refine ⟨nodes, fresh, keys, ?_, ?_, consistent.asserts, consistent.total⟩
  · intro key'
    have others := removed.same key'
    simp only [Cache.without, AList.mem_erase] at others
    simp only [Cache.touched, pushBack, List.map_append, List.map_cons, List.map_nil,
      List.mem_append, List.mem_singleton, others]
    constructor
    · rintro (⟨-, old⟩ | rfl)
      · exact old
      · exact present
    · intro old
      by_cases here : key' = key
      · exact Or.inr here
      · exact Or.inl ⟨here, old⟩
  · intro key' ptr' stored'
    by_cases here : key' = key
    · subst here
      obtain rfl := Option.some.inj (stored.symm.trans stored')
      exact ⟨c.nextNode, Function.update_self ..,
        List.mem_append_right _ (List.mem_singleton.mpr rfl)⟩
    · have stays : (c.memoryMap.erase key).lookup key' = some ptr' := by
        rwa [AList.lookup_erase_ne here]
      obtain ⟨node', points, member⟩ := removed.iterators key' ptr' stays
      have other : ptr' ≠ ptr := fun same => here (consistent.stored_once stored' (same ▸ stored))
      exact ⟨node', (Function.update_of_ne other ..).trans points, List.mem_append_left _ member⟩

/-! ## The operations -/

/-- `shrink` by the size of a stored instance. -/
theorem Cache.Consistent.shrink (consistent : c.Consistent instances)
    (stored : c.memoryMap.lookup key = some ptr) :
    c.shrink (instances ptr).totSize =
      .ok { c with cacheSize := c.cacheSize - (instances ptr).totSize } :=
  if_pos (consistent.size_le stored)

/-- The size of a stored instance is answered. -/
theorem Cache.Consistent.getTotSize (consistent : c.Consistent instances)
    (stored : c.memoryMap.lookup key = some ptr) :
    (instances ptr).getTotSize = .ok (instances ptr).totSize :=
  if_pos (consistent.asserts key ptr stored)

/-- A node of the list is erased. -/
theorem Cache.eraseNode_listed (listed : node ∈ c.memoryList.map Prod.fst) :
    c.eraseNode (some node) =
      .ok { c with memoryList := c.memoryList.filter fun entry => entry.1 ≠ node } :=
  if_pos listed

/-- `Cache::erase` at an iterator of the map takes the entry out. -/
theorem Cache.Consistent.eraseMap (consistent : c.Consistent instances)
    (stored : c.memoryMap.lookup key = some ptr) :
    ∃ node, (node, key) ∈ c.memoryList ∧
      c.eraseMap instances key ptr = .ok (c.without key node (instances ptr).totSize) := by
  obtain ⟨node, points, inside⟩ := consistent.iterators key ptr stored
  have listed : node ∈ c.memoryList.map Prod.fst := List.mem_map.mpr ⟨_, inside, rfl⟩
  refine ⟨node, inside, ?_⟩
  simp only [Cache.eraseMap, consistent.getTotSize stored, consistent.shrink stored, points, bind,
    Except.bind, Cache.eraseNode, if_pos listed]
  rfl

/-- `Cache::erase` at an iterator of the list takes the same entry out. -/
theorem Cache.Consistent.eraseList (consistent : c.Consistent instances)
    (inside : (node, key) ∈ c.memoryList) :
    ∃ ptr, c.memoryMap.lookup key = some ptr ∧
      c.eraseList instances (node, key) = .ok (c.without key node (instances ptr).totSize) := by
  have present := (consistent.same key).mp (List.mem_map.mpr ⟨_, inside, rfl⟩)
  obtain ⟨ptr, stored⟩ := Option.isSome_iff_exists.mp (AList.lookup_isSome.mpr present)
  have listed : node ∈ c.memoryList.map Prod.fst := List.mem_map.mpr ⟨_, inside, rfl⟩
  refine ⟨ptr, stored, ?_⟩
  simp only [Cache.eraseList, stored, consistent.getTotSize stored, consistent.shrink stored, bind,
    Except.bind, Cache.eraseNode, if_pos listed]
  rfl

/-- `Cache::get` answers what the map holds. -/
theorem Cache.Consistent.get (consistent : c.Consistent instances) (key : Bytes) :
    ∃ c', c.get key = .ok (c', c.memoryMap.lookup key) ∧ c'.Consistent instances ∧
      c'.cacheSize = c.cacheSize ∧ c'.cacheMaxSize = c.cacheMaxSize := by
  cases stored : c.memoryMap.lookup key with
  | none => exact ⟨c, by simp only [Cache.get, stored], consistent, rfl, rfl⟩
  | some ptr =>
    obtain ⟨node, points, inside⟩ := consistent.iterators key ptr stored
    have listed : node ∈ c.memoryList.map Prod.fst := List.mem_map.mpr ⟨_, inside, rfl⟩
    refine ⟨c.touched key ptr node, ?_, consistent.touched stored inside, rfl, rfl⟩
    simp only [Cache.get, stored, points, Cache.eraseNode_listed listed, bind, Except.bind]
    rfl

/-- The eviction loop ends with a total within the maximum. -/
theorem Cache.Consistent.evict (rounds : ℕ) : ∀ c : Cache, c.Consistent instances →
    c.memoryList.length ≤ rounds → ∃ c', c.evict instances rounds = .ok c' ∧
      c'.Consistent instances ∧ c'.cacheSize ≤ c'.cacheMaxSize ∧
        c'.cacheMaxSize = c.cacheMaxSize := by
  -- an empty list leaves an empty map, whose total is zero
  have stops (c : Cache) (consistent : c.Consistent instances) (empty : c.memoryList = []) :
      ¬ c.cacheSize > c.cacheMaxSize := by
    have none : c.memoryMap.entries = [] := by
      cases entries : c.memoryMap.entries with
      | nil => rfl
      | cons entry rest =>
        have present : entry.1 ∈ c.memoryMap := by
          rw [AList.mem_keys, AList.keys, entries]
          exact List.mem_cons_self
        have listed := (consistent.same entry.1).mpr present
        rw [empty] at listed
        cases listed
    have zero : c.cacheSize.toNat = 0 := by
      rw [consistent.total, totalSize, none]
      rfl
    rw [gt_iff_lt, UInt64.lt_iff_toNat_lt]
    omega
  induction rounds with
  | zero =>
    intro c consistent short
    have within := stops c consistent (List.eq_nil_of_length_eq_zero (by omega))
    exact ⟨c, if_neg within, consistent, UInt64.not_lt.mp within, rfl⟩
  | succ rounds ih =>
    intro c consistent short
    by_cases above : c.cacheSize > c.cacheMaxSize
    · obtain ⟨⟨node, key⟩, rest, listed⟩ : ∃ node rest, c.memoryList = node :: rest :=
        List.exists_cons_of_ne_nil fun empty => stops c consistent empty above
      have inside : (node, key) ∈ c.memoryList := listed ▸ List.mem_cons_self
      obtain ⟨ptr, stored, erased⟩ := consistent.eraseList inside
      have shorter : (c.memoryList.filter fun entry => entry.1 ≠ node).length <
          c.memoryList.length :=
        List.length_filter_lt_length_iff_exists.mpr ⟨(node, key), inside, by simp⟩
      obtain ⟨c', ran, consistent', within, max⟩ := ih _ (consistent.without stored inside)
        (show (c.memoryList.filter fun entry => entry.1 ≠ node).length ≤ rounds by omega)
      refine ⟨c', ?_, consistent', within, max⟩
      rw [Cache.evict, if_pos above, listed]
      simp only [erased, Except.bind]
      exact ran
    · exact ⟨c, if_neg above, consistent, UInt64.not_lt.mp above, rfl⟩

/-! ## Runs -/

/-- An operation on the cache. -/
inductive CacheOp
  /-- Look a key up. -/
  | get (key : Bytes)
  /-- Store an instance under a key. -/
  | put (key : Bytes) (ptr : ℕ)

variable (instances)

/-- One operation. -/
def Cache.apply (c : Cache) : CacheOp → Except Fault Cache
  | .get key => (c.get key).map Prod.fst
  | .put key ptr => c.put instances key ptr

/-- A sequence of operations. -/
def Cache.run (c : Cache) : List CacheOp → Except Fault Cache
  | [] => .ok c
  | op :: ops => (c.apply instances op).bind fun c' => c'.run ops

/-- An instance is put only when it is not stored under another key, its sizes agree, and there is
room for it in the running total. -/
def CacheOp.Admissible (c : Cache) : CacheOp → Prop
  | .get _ => True
  | .put key ptr => (∀ other, c.memoryMap.lookup other = some ptr → other = key) ∧
      (instances ptr).Asserts ∧
      totalSize instances (c.memoryMap.erase key) + sizeOf instances ptr < 2 ^ 64

/-- Every operation of a sequence is admissible when its turn comes. -/
def Cache.Admits (c : Cache) : List CacheOp → Prop
  | [] => True
  | op :: ops => op.Admissible instances c ∧
      ∀ c', c.apply instances op = .ok c' → c'.Admits ops

variable {instances}

/-- What `Cache::put` does first: no entry is left under the key. -/
theorem Cache.Consistent.clear (consistent : c.Consistent instances) (key : Bytes) :
    ∃ c', c.clear instances key = .ok c' ∧ c'.Consistent instances ∧
      c'.memoryMap = c.memoryMap.erase key ∧ c'.cacheMaxSize = c.cacheMaxSize := by
  unfold Cache.clear
  cases stored : c.memoryMap.lookup key with
  | none =>
    have absent := AList.lookup_eq_none.mp stored
    exact ⟨c, rfl, consistent,
      AList.ext (List.kerase_of_notMem_keys fun listed => absent (AList.mem_keys.mpr listed)).symm,
      rfl⟩
  | some old =>
    obtain ⟨node, inside, erased⟩ := consistent.eraseMap stored
    exact ⟨_, erased, consistent.without stored inside, rfl, rfl⟩

/-- In front of its evictions `put` has replaced the entry under the key. -/
theorem Cache.Consistent.replace (consistent : c.Consistent instances)
    (admissible : (CacheOp.put key ptr).Admissible instances c) :
    ∃ cleared, c.clear instances key = .ok cleared ∧
      (cleared.withEntry key ptr (instances ptr).totSize).Consistent instances ∧
      c.put instances key ptr = (cleared.withEntry key ptr (instances ptr).totSize).evict instances
        (cleared.withEntry key ptr (instances ptr).totSize).memoryList.length ∧
      cleared.cacheMaxSize = c.cacheMaxSize := by
  obtain ⟨elsewhere, sound, room⟩ := admissible
  obtain ⟨cleared, ran, consistent', map, max⟩ := consistent.clear key
  have absent : key ∉ cleared.memoryMap := by
    rw [map]
    exact fun present => (AList.mem_erase.mp present).1 rfl
  have unused : ∀ other, cleared.memoryMap.lookup other ≠ some ptr := by
    intro other stored
    rw [map] at stored
    by_cases here : other = key
    · rw [here, AList.lookup_erase] at stored
      cases stored
    · rw [AList.lookup_erase_ne here] at stored
      exact here (elsewhere other stored)
  have found : (cleared.memoryMap.insert key ptr).lookup key = some ptr := AList.lookup_insert _
  have answered : (instances ptr).getTotSize = .ok (instances ptr).totSize := if_pos sound
  have replaced : c.put instances key ptr =
      (cleared.withEntry key ptr (instances ptr).totSize).evict instances
        (cleared.withEntry key ptr (instances ptr).totSize).memoryList.length := by
    simp only [Cache.put, ran, bind, Except.bind, Cache.insert, if_neg absent, found, answered]
    rfl
  exact ⟨cleared, ran, consistent'.withEntry absent unused sound (map ▸ room), replaced, max⟩

/-- `Cache::put` of an admissible instance. -/
theorem Cache.Consistent.put (consistent : c.Consistent instances)
    (admissible : (CacheOp.put key ptr).Admissible instances c) :
    ∃ c', c.put instances key ptr = .ok c' ∧ c'.Consistent instances ∧
      c'.cacheSize ≤ c'.cacheMaxSize ∧ c'.cacheMaxSize = c.cacheMaxSize := by
  obtain ⟨cleared, -, grown, replaced, max⟩ := consistent.replace admissible
  obtain ⟨last, evicted, final, within, max'⟩ := Cache.Consistent.evict _ _ grown le_rfl
  exact ⟨last, replaced.trans evicted, final, within, max'.trans max⟩

/-- One admissible operation. -/
theorem Cache.Consistent.apply (consistent : c.Consistent instances) {op : CacheOp}
    (admissible : op.Admissible instances c) :
    ∃ c', c.apply instances op = .ok c' ∧ c'.Consistent instances ∧
      c'.cacheMaxSize = c.cacheMaxSize ∧
        ∀ key ptr, op = .put key ptr → c'.cacheSize ≤ c'.cacheMaxSize := by
  cases op with
  | get key =>
    obtain ⟨c', ran, consistent', -, max⟩ := consistent.get key
    refine ⟨c', ?_, consistent', max, fun _ _ other => by cases other⟩
    rw [Cache.apply, ran]
    rfl
  | put key ptr =>
    obtain ⟨c', ran, consistent', within, max⟩ := consistent.put admissible
    exact ⟨c', ran, consistent', max, fun _ _ _ => within⟩

/-- Every prefix of an admissible sequence runs without a fault. -/
theorem Cache.Consistent.run {ops : List CacheOp} (consistent : c.Consistent instances)
    (admitted : c.Admits instances ops) : ∀ done, done <+: ops →
      ∃ c', c.run instances done = .ok c' ∧ c'.Consistent instances ∧
        c'.cacheMaxSize = c.cacheMaxSize ∧
          ∀ key ptr, done.getLast? = some (.put key ptr) → c'.cacheSize ≤ c'.cacheMaxSize := by
  induction ops generalizing c with
  | nil =>
    intro done part
    rw [List.prefix_nil.mp part]
    exact ⟨c, rfl, consistent, rfl, fun _ _ last => by cases last⟩
  | cons op ops ih =>
    intro done part
    cases done with
    | nil => exact ⟨c, rfl, consistent, rfl, fun _ _ last => by cases last⟩
    | cons first rest =>
      obtain ⟨rfl, shorter⟩ := List.cons_prefix_cons.mp part
      obtain ⟨next, ran, consistent', max, within⟩ := consistent.apply admitted.1
      obtain ⟨last, finished, final, max', within'⟩ :=
        ih consistent' (admitted.2 next ran) rest shorter
      refine ⟨last, by rw [Cache.run, ran]; exact finished, final, max'.trans max, ?_⟩
      intro key ptr ending
      cases rest with
      | nil =>
        obtain rfl : next = last := Except.ok.inj finished
        exact within key ptr (Option.some.inj ending)
      | cons second others => exact within' key ptr (by rwa [List.getLast?_cons_cons] at ending)

/-- The empty cache is consistent. -/
theorem Cache.new_consistent (max : UInt64) : (Cache.new max).Consistent instances where
  nodes := List.nodup_nil
  fresh _ inside := by cases inside
  keys := List.nodup_nil
  same key :=
    ⟨fun listed => (by cases listed), fun present => absurd present (AList.notMem_empty key)⟩
  iterators _ _ stored := by cases stored
  asserts _ _ stored := by cases stored
  total := rfl

/-- In every run of admissible operations the cache stays consistent, no assertion fires, no
iterator dangles, the eviction loop ends, and every `put` leaves the total within the maximum. -/
theorem cache_run_consistent (instances : ℕ → CacheInstance) (max : UInt64) (ops : List CacheOp)
    (admitted : (Cache.new max).Admits instances ops) (done : List CacheOp) (part : done <+: ops) :
    ∃ c, (Cache.new max).run instances done = .ok c ∧ c.Consistent instances ∧
      c.cacheMaxSize = max ∧
        ∀ key ptr, done.getLast? = some (.put key ptr) → c.cacheSize ≤ c.cacheMaxSize :=
  (Cache.new_consistent max).run admitted done part

/-- An instance of two bytes. -/
def smallInstance (_ : ℕ) : CacheInstance where
  header := { HttpHeader.new with header := bytes "h", bodySize := 1 }
  body := ⟨bytes "b"⟩

/-- Two instances that do not both fit, the first one looked up in between. -/
def smallRun : List CacheOp := [.put (bytes "a") 0, .get (bytes "a"), .put (bytes "b") 1]

/-- The operations on the two instances are admissible. -/
theorem smallRun_admitted : (Cache.new 3).Admits smallInstance smallRun := by
  simp only [smallRun, Cache.Admits, CacheOp.Admissible]
  refine ⟨⟨fun other stored => ?_, by decide, by decide⟩, fun c ran => ?_⟩
  · rw [Cache.new, AList.lookup_empty] at stored
    cases stored
  obtain rfl := Except.ok.inj ran
  refine ⟨trivial, fun c ran => ?_⟩
  obtain rfl := Except.ok.inj ran
  refine ⟨⟨fun other stored => ?_, by decide, by decide⟩, fun c ran => trivial⟩
  have entry : (⟨other, 1⟩ : Sigma fun _ : Bytes => ℕ) ∈
      [(⟨bytes "a", 0⟩ : Sigma fun _ : Bytes => ℕ)] := AList.mem_lookup_iff.mp stored
  cases List.mem_singleton.mp entry

/-- After the second `put` only the second instance is left. -/
theorem cache_run_consistent_small : ∃ c, (Cache.new 3).run smallInstance smallRun = .ok c ∧
    c.Consistent smallInstance ∧ c.cacheMaxSize = 3 ∧
      ∀ key ptr, smallRun.getLast? = some (.put key ptr) → c.cacheSize ≤ c.cacheMaxSize :=
  cache_run_consistent smallInstance 3 smallRun smallRun_admitted smallRun List.prefix_rfl

end TinyTools.Proxy
