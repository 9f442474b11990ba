import TinyTools.Proxy.Exchange

/-!
# Runs of the proxy

Sessions share the cache and nothing else, and hold its mutex for one `get` or one `put`. A run is
any order of three kinds of steps: a client is accepted, a session reads a request and looks it up,
and a session that found nothing gets its response and may store it. What can be seen of them is
recorded as a sequence of events. A fault ends the process, and no step follows it.
-/

namespace TinyTools.Proxy

open TinyTools.Lib

/-! ## Steps -/

/-- Where a session stands. -/
inductive Phase
  /-- At the start of the loop. -/
  | waiting (s : Session)
  /-- Behind a lookup that found nothing, or that was not made. -/
  | forwarding (s : Session) (address : Address) (clientHeader : HttpHeader)
  /-- Its connections are closed. -/
  | over

/-- The state of the proxy. -/
structure ProxyState where
  /-- The shared cache. -/
  cache : Cache
  /-- The instances by pointer; they are neither changed nor freed. -/
  instances : ℕ → CacheInstance
  /-- The pointer the next instance gets. -/
  nextPtr : ℕ
  /-- The sessions that were started. -/
  sessions : ℕ → Option Phase
  /-- The process has not been aborted. -/
  alive : Bool

/-- The proxy when its server is open. -/
def ProxyState.start (cacheSize : UInt64) : ProxyState where
  cache := Cache.new cacheSize
  instances _ := ⟨HttpHeader.new, HttpBody.new⟩
  nextPtr := 0
  sessions _ := none
  alive := true

/-- A session moves on. -/
def ProxyState.setPhase (p : ProxyState) (i : ℕ) (phase : Phase) : ProxyState :=
  { p with sessions := Function.update p.sessions i (some phase) }

/-- The process is aborted. -/
def ProxyState.abort (p : ProxyState) : ProxyState := { p with alive := false }

/-- What can be seen of a step. -/
inductive Event
  /-- A session starts. -/
  | accepted (i : ℕ)
  /-- A session ends without a further request. -/
  | closed (i : ℕ)
  /-- A request is answered from the cache. -/
  | hit (i : ℕ) (address : Address) (served : CacheInstance) (written : Bytes)
  /-- A request is to be forwarded. -/
  | miss (i : ℕ) (address : Address)
  /-- A forwarded request is answered, and the response may be stored. -/
  | answered (i : ℕ) (address : Address) (written : Bytes) (stored : Option CacheInstance)
  /-- An assertion fails or the cache is broken. -/
  | crashed (i : ℕ)
deriving DecidableEq

/-- Which session moves next, and what its environment answers. -/
inductive Choice
  /-- A client connects. The arrays of the session are not initialized. -/
  | accept (i : ℕ) (socket : Socket) (buf url resp : Bytes)
  /-- A session reads its next request. -/
  | request (i : ℕ)
  /-- A session gets its response, over the socket a new connection would get. -/
  | answer (i : ℕ) (connection : Option Socket)

/-- The phase behind an exchange. -/
def Exchange.phase (exchange : Exchange) : Phase :=
  match exchange.ending with
  | .again => .waiting exchange.session
  | _ => .over

/-- What an exchange wrote to its client. -/
def Exchange.written (exchange : Exchange) (s : Session) : Bytes :=
  exchange.session.client.socket.sent.drop s.client.socket.sent.length

/-- A session reads a request and looks it up. -/
def ProxyState.request (p : ProxyState) (i : ℕ) (s : Session) : Option (Event × ProxyState) :=
  match readRequest s with
  | .closed _ => some (.closed i, p.setPhase i .over)
  | .request s address header =>
    if eligible header then
      match p.cache.get address.key with
      | .error _ => some (.crashed i, p.abort)
      | .ok (cache, none) =>
        some (.miss i address,
          { p with cache := cache }.setPhase i (.forwarding s address header))
      | .ok (cache, some ptr) =>
        let exchange := serveHit s (p.instances ptr)
        some (.hit i address (p.instances ptr) (exchange.written s),
          { p with cache := cache }.setPhase i exchange.phase)
    else some (.miss i address, p.setPhase i (.forwarding s address header))

/-- A session gets its response and stores it. The event says so even if the `put` fails. -/
def ProxyState.answer (p : ProxyState) (i : ℕ) (s : Session) (address : Address)
    (header : HttpHeader) (connection : Option Socket) : Option (Event × ProxyState) :=
  let exchange := forward s address header connection
  if exchange.ending = .aborted then some (.crashed i, p.abort)
  else match exchange.stored with
    | none =>
      some (.answered i address (exchange.written s) none, p.setPhase i exchange.phase)
    | some stored =>
      let event := .answered i address (exchange.written s) (some stored)
      let instances := Function.update p.instances p.nextPtr stored
      match p.cache.put instances address.key p.nextPtr with
      | .error _ => some (event, p.abort)
      | .ok cache =>
        let p := { p with
          cache := cache
          instances := instances
          nextPtr := p.nextPtr + 1 }
        some (event, p.setPhase i exchange.phase)

/-- One step; none is a choice that cannot be made. -/
def ProxyState.step (p : ProxyState) (choice : Choice) : Option (Event × ProxyState) :=
  if p.alive = false then none
  else match choice with
    | .accept i socket buf url resp =>
      match p.sessions i with
      | none => some (.accepted i, p.setPhase i
          (.waiting ⟨CommClient.accepted socket, CommClient.unconnected, buf, url, resp⟩))
      | some _ => none
    | .request i =>
      match p.sessions i with
      | some (.waiting s) => p.request i s
      | _ => none
    | .answer i connection =>
      match p.sessions i with
      | some (.forwarding s address header) => p.answer i s address header connection
      | _ => none

/-- A run: its events, and the state it ends in. -/
def ProxyState.run (p : ProxyState) : List Choice → Option (List Event × ProxyState)
  | [] => some ([], p)
  | choice :: choices => do
    let (event, p) ← p.step choice
    let (events, p) ← p.run choices
    return (event :: events, p)

/-! ## What a step does -/

/-- The instance that an event stores under a key. -/
def Event.put (key : Bytes) : Event → Option CacheInstance
  | .answered _ address _ (some stored) => if address.key = key then some stored else none
  | _ => none

/-- The address of the request an event is about. -/
def Event.address : Event → Option Address
  | .hit _ address _ _ => some address
  | .miss _ address => some address
  | .answered _ address _ _ => some address
  | _ => none

/-- The instance that was stored last under a key. -/
def lastPut (key : Bytes) (events : List Event) : Option CacheInstance :=
  (events.filterMap (Event.put key)).getLast?

/-- The cases of a step. -/
inductive ProxyState.Moves (p : ProxyState) : Choice → Event → ProxyState → Prop
  /-- A client is accepted. -/
  | accept (i : ℕ) (socket : Socket) (buf url resp : Bytes) :
      Moves p (.accept i socket buf url resp) (.accepted i) (p.setPhase i
        (.waiting ⟨CommClient.accepted socket, CommClient.unconnected, buf, url, resp⟩))
  /-- There is no further request. -/
  | close (i : ℕ) : Moves p (.request i) (.closed i) (p.setPhase i .over)
  /-- Nothing was looked up or found. -/
  | miss (i : ℕ) {s s' : Session} {address : Address} {header : HttpHeader} (cache : Cache)
      (waiting : p.sessions i = some (.waiting s))
      (read : readRequest s = .request s' address header)
      (same : cache.memoryMap = p.cache.memoryMap) :
      Moves p (.request i) (.miss i address)
        ({ p with cache := cache }.setPhase i (.forwarding s' address header))
  /-- The cache answers. -/
  | hit (i ptr : ℕ) {s s' : Session} {address : Address} {header : HttpHeader} (cache : Cache)
      (waiting : p.sessions i = some (.waiting s))
      (read : readRequest s = .request s' address header)
      (found : p.cache.memoryMap.lookup address.key = some ptr)
      (same : cache.memoryMap = p.cache.memoryMap) :
      Moves p (.request i)
        (.hit i address (p.instances ptr) ((serveHit s' (p.instances ptr)).written s'))
        ({ p with cache := cache }.setPhase i (serveHit s' (p.instances ptr)).phase)
  /-- A response is not stored. -/
  | answer (i : ℕ) {s : Session} {address : Address} {header : HttpHeader}
      (connection : Option Socket)
      (forwarding : p.sessions i = some (.forwarding s address header)) :
      Moves p (.answer i connection)
        (.answered i address ((forward s address header connection).written s) none)
        (p.setPhase i (forward s address header connection).phase)
  /-- A response is stored. -/
  | store (i : ℕ) {s : Session} {address : Address} {header : HttpHeader} {stored : CacheInstance}
      (connection : Option Socket) (cache : Cache)
      (forwarding : p.sessions i = some (.forwarding s address header))
      (kept : (forward s address header connection).stored = some stored)
      (put : p.cache.put (Function.update p.instances p.nextPtr stored) address.key p.nextPtr =
        .ok cache) :
      Moves p (.answer i connection)
        (.answered i address ((forward s address header connection).written s) (some stored))
        ({ p with
          cache := cache
          instances := Function.update p.instances p.nextPtr stored
          nextPtr := p.nextPtr + 1 }.setPhase i (forward s address header connection).phase)
  /-- A response cannot be stored. -/
  | storeFails (i : ℕ) {s : Session} {address : Address} {header : HttpHeader}
      {stored : CacheInstance} (connection : Option Socket)
      (forwarding : p.sessions i = some (.forwarding s address header))
      (kept : (forward s address header connection).stored = some stored) :
      Moves p (.answer i connection)
        (.answered i address ((forward s address header connection).written s) (some stored))
        p.abort
  /-- A fault ends the process. -/
  | crash (choice : Choice) (i : ℕ) : Moves p choice (.crashed i) p.abort

/-- Every step is one of the cases, and was made by a process that was alive. -/
theorem ProxyState.step_moves {p p' : ProxyState} {choice : Choice} {event : Event}
    (ran : p.step choice = some (event, p')) : p.alive = true ∧ p.Moves choice event p' := by
  unfold step at ran
  by_cases dead : p.alive = false
  · rw [if_pos dead] at ran
    cases ran
  rw [if_neg dead] at ran
  refine ⟨eq_true_of_ne_false dead, ?_⟩
  cases choice with
  | accept i socket buf url resp =>
    dsimp only at ran
    split at ran
    · obtain ⟨rfl, rfl⟩ := Prod.mk.inj (Option.some.inj ran)
      exact .accept i socket buf url resp
    · cases ran
  | request i =>
    dsimp only at ran
    split at ran
    · rename_i s waiting
      unfold request at ran
      split at ran
      · obtain ⟨rfl, rfl⟩ := Prod.mk.inj (Option.some.inj ran)
        exact .close i
      · rename_i s' address header read
        split at ran
        · split at ran
          · obtain ⟨rfl, rfl⟩ := Prod.mk.inj (Option.some.inj ran)
            exact .crash _ i
          · rename_i cache looked
            obtain ⟨rfl, rfl⟩ := Prod.mk.inj (Option.some.inj ran)
            exact .miss i cache waiting read (Cache.get_ok looked).1
          · rename_i cache ptr looked
            obtain ⟨rfl, rfl⟩ := Prod.mk.inj (Option.some.inj ran)
            obtain ⟨same, found⟩ := Cache.get_ok looked
            exact .hit i ptr cache waiting read found.symm same
        · obtain ⟨rfl, rfl⟩ := Prod.mk.inj (Option.some.inj ran)
          exact .miss i p.cache waiting read rfl
    · cases ran
  | answer i connection =>
    dsimp only at ran
    split at ran
    · rename_i s address header forwarding
      unfold answer at ran
      dsimp only at ran
      split at ran
      · obtain ⟨rfl, rfl⟩ := Prod.mk.inj (Option.some.inj ran)
        exact .crash _ i
      · split at ran
        · obtain ⟨rfl, rfl⟩ := Prod.mk.inj (Option.some.inj ran)
          exact .answer i connection forwarding
        · rename_i stored kept
          split at ran
          · obtain ⟨rfl, rfl⟩ := Prod.mk.inj (Option.some.inj ran)
            exact .storeFails i connection forwarding kept
          · rename_i cache put
            obtain ⟨rfl, rfl⟩ := Prod.mk.inj (Option.some.inj ran)
            exact .store i connection cache forwarding kept put
    · cases ran

/-! ## Runs -/

/-- A property of states and of the events that led to them is kept by every run if it is kept by
every step. -/
theorem ProxyState.run_invariant {invariant : List Event → ProxyState → Prop}
    {choices : List Choice}
    (step : ∀ history p choice event p', choice ∈ choices → invariant history p →
      p.step choice = some (event, p') → invariant (history ++ [event]) p')
    {history events : List Event} {p p' : ProxyState} (start : invariant history p)
    (ran : p.run choices = some (events, p')) : invariant (history ++ events) p' := by
  induction choices generalizing history events p with
  | nil =>
    obtain ⟨rfl, rfl⟩ := Prod.mk.inj (Option.some.inj ran)
    rw [List.append_nil]
    exact start
  | cons choice choices ih =>
    obtain ⟨⟨event, p₁⟩, first, ran⟩ := Option.bind_eq_some_iff.mp ran
    obtain ⟨⟨later, p₂⟩, rest, ran⟩ := Option.bind_eq_some_iff.mp ran
    obtain ⟨rfl, rfl⟩ := Prod.mk.inj (Option.some.inj ran)
    have next := step history p choice event p₁ List.mem_cons_self start first
    have final := ih (fun history p other event p' inside =>
      step history p other event p' (List.mem_cons_of_mem _ inside)) next rest
    rwa [List.append_assoc] at final

/-- A run can be cut in front of any of its events. -/
theorem ProxyState.run_split {choices : List Choice} {before after : List Event} {event : Event}
    {p p' : ProxyState} (ran : p.run choices = some (before ++ event :: after, p')) :
    ∃ earlier choice later p₁ p₂, choices = earlier ++ choice :: later ∧
      p.run earlier = some (before, p₁) ∧ p₁.step choice = some (event, p₂) ∧
        p₂.run later = some (after, p') := by
  induction choices generalizing before p with
  | nil =>
    obtain ⟨none_, -⟩ := Prod.mk.inj (Option.some.inj ran)
    exact absurd none_.symm (List.append_ne_nil_of_right_ne_nil _ (List.cons_ne_nil _ _))
  | cons choice choices ih =>
    obtain ⟨⟨first, p₁⟩, stepped, ran⟩ := Option.bind_eq_some_iff.mp ran
    obtain ⟨⟨rest, p₂⟩, went, ran⟩ := Option.bind_eq_some_iff.mp ran
    obtain ⟨events, rfl⟩ := Prod.mk.inj (Option.some.inj ran)
    cases before with
    | nil =>
      obtain ⟨rfl, rfl⟩ := List.cons.inj events
      exact ⟨[], choice, choices, p, p₁, rfl, rfl, stepped, went⟩
    | cons head before =>
      obtain ⟨rfl, rfl⟩ := List.cons.inj events
      obtain ⟨earlier, next, later, p₃, p₄, rfl, ranE, ranS, ranL⟩ := ih went
      refine ⟨choice :: earlier, next, later, p₃, p₄, rfl, ?_, ranS, ranL⟩
      unfold run
      rw [stepped]
      simp only [Option.bind_eq_bind, Option.bind_some, ranE]
      rfl

/-- The last instance stored, when one more event is known. -/
theorem lastPut_append (key : Bytes) (events : List Event) (event : Event) :
    lastPut key (events ++ [event]) = (event.put key).or (lastPut key events) := by
  rw [lastPut, List.filterMap_append, List.getLast?_append, lastPut]
  cases stored : event.put key with
  | none =>
    rw [List.filterMap_cons_none stored]
    rfl
  | some i =>
    rw [List.filterMap_cons_some stored]
    rfl

/-- What was stored last was stored. -/
theorem lastPut_stored {key : Bytes} {events : List Event} {stored : CacheInstance}
    (last : lastPut key events = some stored) :
    ∃ i address written, .answered i address written (some stored) ∈ events ∧
      address.key = key := by
  obtain ⟨event, inside, put⟩ := List.mem_filterMap.mp (List.mem_of_getLast? last)
  unfold Event.put at put
  split at put
  · rename_i i address written other
    split at put
    · rename_i same
      obtain rfl := Option.some.inj put
      exact ⟨i, address, written, inside, same⟩
    · cases put
  · cases put

end TinyTools.Proxy
