import TinyTools.Proxy.HttpHeader

/-!
# The shared cache

A map from keys to instances, a recency list of keys, and an iterator in each instance that
designates the list node of its key. List nodes have identities, so an iterator may dangle; whatever
the code must never do is a fault. Every public operation holds the mutex from its first to its last
step, so a run of the sessions is a sequence of operations.
-/

namespace TinyTools.Proxy

open TinyTools.Lib

/-- What the code of the cache must never do. -/
inductive Fault
  /-- An assertion fires. -/
  | assertion
  /-- An iterator that designates no node is used. -/
  | dangling
  /-- The first node of an empty list is used. -/
  | emptyList
  /-- More is taken from `cacheSize` than it holds. -/
  | underflow
deriving DecidableEq

/-- `CacheInstance`, except for its iterator, which the cache writes. -/
structure CacheInstance where
  /-- The stored header. -/
  header : HttpHeader
  /-- The stored body. -/
  body : HttpBody
deriving DecidableEq

/-- The sum `getTotSize` answers. -/
def CacheInstance.totSize (i : CacheInstance) : UInt64 :=
  UInt64.ofNat i.header.getHeaderSize + i.header.getBodySize

/-- The assertion of `getTotSize`, on sizes converted to `ssize_t`. -/
def CacheInstance.Asserts (i : CacheInstance) : Prop :=
  i.header.getBodySize.toInt64 = (UInt64.ofNat i.body.getBodySize).toInt64 ∨
    i.header.getBodySize.toInt64 = -1

instance (i : CacheInstance) : Decidable i.Asserts := inferInstanceAs (Decidable (_ ∨ _))

/-- `CacheInstance::getTotSize`. -/
def CacheInstance.getTotSize (i : CacheInstance) : Except Fault UInt64 :=
  if i.Asserts then .ok i.totSize else .error .assertion

/-- `Cache`. An instance is named by its pointer and a list node by its number. -/
structure Cache where
  /-- The size the instances may take up together. -/
  cacheMaxSize : UInt64
  /-- The size they take up. -/
  cacheSize : UInt64
  /-- The instances by key. -/
  memoryMap : AList fun _ : Bytes => ℕ
  /-- The nodes of the recency list, oldest first. -/
  memoryList : List (ℕ × Bytes)
  /-- The number of the next list node. -/
  nextNode : ℕ
  /-- The iterator in each instance. -/
  iterator : ℕ → Option ℕ

/-- The cache after `setCacheSize`. -/
def Cache.new (size : UInt64) : Cache where
  cacheMaxSize := size
  cacheSize := 0
  memoryMap := ∅
  memoryList := []
  nextNode := 0
  iterator _ := none

/-- `cacheSize -= size`. -/
def Cache.shrink (c : Cache) (size : UInt64) : Except Fault Cache :=
  if size ≤ c.cacheSize then .ok { c with cacheSize := c.cacheSize - size } else .error .underflow

/-- `memoryList.erase` at an iterator. -/
def Cache.eraseNode (c : Cache) (position : Option ℕ) : Except Fault Cache :=
  match position with
  | none => .error .dangling
  | some node =>
    if node ∈ c.memoryList.map Prod.fst then
      .ok { c with memoryList := c.memoryList.filter fun entry => entry.1 ≠ node }
    else .error .dangling

/-- `memoryList.push_back`, and the iterator of the new node is stored in an instance. -/
def Cache.pushBack (c : Cache) (key : Bytes) (ptr : ℕ) : Cache :=
  { c with
    memoryList := c.memoryList ++ [(c.nextNode, key)]
    nextNode := c.nextNode + 1
    iterator := Function.update c.iterator ptr (some c.nextNode) }

section

variable (instances : ℕ → CacheInstance)

/-- `Cache::erase` at an iterator of the map. -/
def Cache.eraseMap (c : Cache) (key : Bytes) (ptr : ℕ) : Except Fault Cache := do
  let size ← (instances ptr).getTotSize
  let c ← c.shrink size
  let c ← c.eraseNode (c.iterator ptr)
  return { c with memoryMap := c.memoryMap.erase key }

/-- `Cache::erase` at an iterator of the list. -/
def Cache.eraseList (c : Cache) (node : ℕ × Bytes) : Except Fault Cache :=
  match c.memoryMap.lookup node.2 with
  | none => .error .assertion
  | some ptr => do
    let size ← (instances ptr).getTotSize
    let c ← c.shrink size
    let c ← c.eraseNode (some node.1)
    return { c with memoryMap := c.memoryMap.erase node.2 }

/-- `Cache::get`. -/
def Cache.get (c : Cache) (key : Bytes) : Except Fault (Cache × Option ℕ) :=
  match c.memoryMap.lookup key with
  | none => .ok (c, none)
  | some ptr => do
    let c ← c.eraseNode (c.iterator ptr)
    return (c.pushBack key ptr, some ptr)

/-- The eviction loop of `Cache::put`. Every round takes one node from the list, so it runs at most
as many rounds as the list has nodes, and one more would start from an empty list. -/
def Cache.evict : ℕ → Cache → Except Fault Cache
  | 0, c => if c.cacheSize > c.cacheMaxSize then .error .emptyList else .ok c
  | rounds + 1, c =>
    if c.cacheSize > c.cacheMaxSize then
      match c.memoryList with
      | [] => .error .emptyList
      | node :: _ => (c.eraseList instances node).bind (evict rounds)
    else .ok c

/-- `memoryMap.insert`, which keeps an entry that is there. -/
def Cache.insert (c : Cache) (key : Bytes) (ptr : ℕ) : Cache :=
  if key ∈ c.memoryMap then c else { c with memoryMap := c.memoryMap.insert key ptr }

/-- `cacheSize += size`. -/
def Cache.grow (c : Cache) (size : UInt64) : Cache := { c with cacheSize := c.cacheSize + size }

/-- The start of `Cache::put`: an entry under the key is erased. -/
def Cache.clear (c : Cache) (key : Bytes) : Except Fault Cache :=
  match c.memoryMap.lookup key with
  | some old => c.eraseMap instances key old
  | none => .ok c

/-- `Cache::put`. -/
def Cache.put (c : Cache) (key : Bytes) (ptr : ℕ) : Except Fault Cache := do
  let c ← c.clear instances key
  let c := c.insert key ptr
  match c.memoryMap.lookup key with
  | none => .error .assertion
  | some found =>
    let c := c.pushBack key found
    let size ← (instances found).getTotSize
    let c := c.grow size
    c.evict instances c.memoryList.length

end

/-! ## What the cache does to its map -/

section

variable {c c' : Cache} {instances : ℕ → CacheInstance} {key : Bytes} {ptr : ℕ}

/-- The sizes and the list do not concern the map. -/
theorem Cache.shrink_map {size : UInt64} (ran : c.shrink size = .ok c') :
    c'.memoryMap = c.memoryMap := by
  unfold Cache.shrink at ran
  split at ran
  · rw [← Except.ok.inj ran]
  · cases ran

/-- Erasing a node of the list leaves the map alone. -/
theorem Cache.eraseNode_map {position : Option ℕ} (ran : c.eraseNode position = .ok c') :
    c'.memoryMap = c.memoryMap := by
  unfold Cache.eraseNode at ran
  split at ran
  · cases ran
  · split at ran
    · rw [← Except.ok.inj ran]
    · cases ran

/-- What both kinds of erasure do once they have the instance. -/
theorem Cache.erased_map (position : Cache → Option ℕ) (ran : (do
      let size ← (instances ptr).getTotSize
      let c ← c.shrink size
      let c ← c.eraseNode (position c)
      return { c with memoryMap := c.memoryMap.erase key } : Except Fault Cache) = .ok c') :
    c'.memoryMap = c.memoryMap.erase key := by
  cases answered : (instances ptr).getTotSize with
  | error fault =>
    rw [answered] at ran
    cases ran
  | ok size =>
    cases shrunk : c.shrink size with
    | error fault =>
      simp only [answered, bind, Except.bind, shrunk] at ran
      cases ran
    | ok c₁ =>
      cases erased : c₁.eraseNode (position c₁) with
      | error fault =>
        simp only [answered, bind, Except.bind, shrunk, erased] at ran
        cases ran
      | ok c₂ =>
        simp only [answered, bind, Except.bind, shrunk, erased, pure, Except.pure] at ran
        rw [← Except.ok.inj ran]
        dsimp only
        rw [Cache.eraseNode_map erased, Cache.shrink_map shrunk]

/-- A lookup answers what the map holds, and leaves the map as it is. -/
theorem Cache.get_ok {found : Option ℕ} (ran : c.get key = .ok (c', found)) :
    c'.memoryMap = c.memoryMap ∧ found = c.memoryMap.lookup key := by
  unfold Cache.get at ran
  cases stored : c.memoryMap.lookup key with
  | none =>
    rw [stored] at ran
    obtain ⟨rfl, rfl⟩ := Prod.mk.inj (Except.ok.inj ran)
    exact ⟨rfl, rfl⟩
  | some ptr =>
    rw [stored] at ran
    cases erased : c.eraseNode (c.iterator ptr) with
    | error fault =>
      simp only [erased, bind, Except.bind] at ran
      cases ran
    | ok c₁ =>
      simp only [erased, bind, Except.bind, pure, Except.pure] at ran
      obtain ⟨rfl, rfl⟩ := Prod.mk.inj (Except.ok.inj ran)
      have pushed : (c₁.pushBack key ptr).memoryMap = c₁.memoryMap := rfl
      exact ⟨pushed.trans (Cache.eraseNode_map erased), rfl⟩

/-- Behind the start of `put` the key is not in the map, and nothing else is missing. -/
theorem Cache.clear_map (ran : c.clear instances key = .ok c') :
    key ∉ c'.memoryMap ∧ ∀ k, k ≠ key → c'.memoryMap.lookup k = c.memoryMap.lookup k := by
  unfold Cache.clear at ran
  cases stored : c.memoryMap.lookup key with
  | none =>
    rw [stored] at ran
    rw [← Except.ok.inj ran]
    exact ⟨AList.lookup_eq_none.mp stored, fun _ _ => rfl⟩
  | some old =>
    rw [stored] at ran
    dsimp only at ran
    unfold Cache.eraseMap at ran
    rw [Cache.erased_map (fun c => c.iterator old) ran]
    exact ⟨fun inside => (AList.mem_erase.mp inside).1 rfl,
      fun k other => AList.lookup_erase_ne other⟩

/-- Eviction takes entries from the map. -/
theorem Cache.evict_map (rounds : ℕ) {c : Cache} (ran : c.evict instances rounds = .ok c')
    {k : Bytes} {q : ℕ} (kept : c'.memoryMap.lookup k = some q) :
    c.memoryMap.lookup k = some q := by
  induction rounds generalizing c with
  | zero =>
    unfold Cache.evict at ran
    split at ran
    · cases ran
    · rw [Except.ok.inj ran]
      exact kept
  | succ rounds ih =>
    unfold Cache.evict at ran
    split at ran
    · split at ran
      · cases ran
      · rename_i node others _
        cases erased : c.eraseList instances node with
        | error fault =>
          rw [erased] at ran
          cases ran
        | ok c₁ =>
          rw [erased] at ran
          have later := ih ran
          unfold Cache.eraseList at erased
          split at erased
          · cases erased
          · rw [Cache.erased_map (fun _ => some node.1) erased] at later
            by_cases here : k = node.2
            · rw [here, AList.lookup_erase] at later
              cases later
            · rwa [AList.lookup_erase_ne here] at later
    · rw [Except.ok.inj ran]
      exact kept

/-- Behind a `put` the map holds the new entry or nothing under the key, and elsewhere at most what
it held. -/
theorem Cache.put_map (ran : c.put instances key ptr = .ok c') {k : Bytes} {q : ℕ}
    (kept : c'.memoryMap.lookup k = some q) :
    k = key ∧ q = ptr ∨ k ≠ key ∧ c.memoryMap.lookup k = some q := by
  unfold Cache.put at ran
  cases cleared : c.clear instances key with
  | error fault =>
    simp only [cleared, bind, Except.bind] at ran
    cases ran
  | ok c₁ =>
    obtain ⟨absent, elsewhere⟩ := Cache.clear_map cleared
    have inserted : c₁.insert key ptr = { c₁ with memoryMap := c₁.memoryMap.insert key ptr } :=
      if_neg absent
    have found : (c₁.insert key ptr).memoryMap.lookup key = some ptr := by
      rw [inserted]
      exact AList.lookup_insert _
    simp only [cleared, bind, Except.bind, found] at ran
    cases answered : (instances ptr).getTotSize with
    | error fault =>
      rw [answered] at ran
      cases ran
    | ok size =>
      rw [answered] at ran
      have before := Cache.evict_map _ ran kept
      have entry : (c₁.memoryMap.insert key ptr).lookup k = some q := by
        rw [inserted] at before
        exact before
      by_cases here : k = key
      · rw [here, AList.lookup_insert] at entry
        exact Or.inl ⟨here, (Option.some.inj entry).symm⟩
      · rw [AList.lookup_insert_ne here, elsewhere k here] at entry
        exact Or.inr ⟨here, entry⟩

end

end TinyTools.Proxy
