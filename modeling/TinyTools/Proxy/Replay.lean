import TinyTools.Proxy.History

/-!
# Hits repeat what misses said

While every write to a client delivers its whole buffer, an instance is put into the cache only if
its header and its body are what the client of that exchange was sent, and every hit before the next
`put` under its key sends the same bytes.
-/

namespace TinyTools.Proxy

open TinyTools.Lib

/-- The writes to a new client deliver their whole buffer. -/
def Choice.Delivers : Choice → Prop
  | .accept _ socket _ _ _ => ∀ outcome ∈ socket.outcomes, outcome = none
  | _ => True

instance : DecidablePred Choice.Delivers
  | .accept _ socket _ _ _ =>
    inferInstanceAs (Decidable (∀ outcome ∈ socket.outcomes, outcome = none))
  | .request _ => .isTrue trivial
  | .answer _ _ => .isTrue trivial

/-- Reading a request says nothing to the client. -/
theorem readRequest_kept {s s' : Session} {address : Address} {header : HttpHeader}
    (read : readRequest s = .request s' address header) : s.client.Kept s'.client := by
  obtain ⟨line, -⟩ := s.client.lineLoop_spec (MAXLINE - 1)
  obtain ⟨-, buf, client⟩ := readRequest_request read
  rw [client]
  exact line.trans (headerLoop_spec ..).1

/-- Sessions can write to their clients, and instances are whole. -/
structure ProxyState.Writable (p : ProxyState) : Prop where
  /-- A session at the start of the loop. -/
  waiting : ∀ i s, p.sessions i = some (.waiting s) → s.client.Delivering
  /-- A session behind a lookup. -/
  forwarding : ∀ i s address header, p.sessions i = some (.forwarding s address header) →
    s.client.Delivering
  /-- Everything that was stored. -/
  whole : ∀ ptr, ptr < p.nextPtr → (p.instances ptr).Whole

/-- A session that moves on to a phase in which it can write. -/
theorem ProxyState.Writable.setPhase {p : ProxyState} (writable : p.Writable) {i : ℕ}
    {phase : Phase} (waiting : ∀ s, phase = .waiting s → s.client.Delivering)
    (forwarding : ∀ s address header, phase = .forwarding s address header → s.client.Delivering) :
    (p.setPhase i phase).Writable where
  waiting j s stands := by
    rcases setPhase_cases stands with moved | stood
    · exact waiting s moved.symm
    · exact writable.waiting j s stood
  forwarding j s address header stands := by
    rcases setPhase_cases stands with moved | stood
    · exact forwarding s address header moved.symm
    · exact writable.forwarding j s address header stood
  whole := writable.whole

/-- A session that goes on behind an exchange. -/
theorem Exchange.phase_waiting {exchange : Exchange} {s : Session}
    (goesOn : exchange.phase = .waiting s) : exchange.ending = .again ∧ exchange.session = s := by
  unfold phase at goesOn
  split at goesOn
  · exact ⟨‹_›, Phase.waiting.inj goesOn⟩
  · cases goesOn

/-- A session behind an exchange that leaves a connection to write to. -/
theorem ProxyState.Writable.exchange {p : ProxyState} (writable : p.Writable) (i : ℕ)
    {exchange : Exchange}
    (delivering : exchange.ending = .again → exchange.session.client.Delivering) :
    (p.setPhase i exchange.phase).Writable := by
  refine writable.setPhase (fun s goesOn => ?_) fun s address header waits =>
    (exchange.phase_ne_forwarding s address header waits).elim
  obtain ⟨again, rfl⟩ := Exchange.phase_waiting goesOn
  exact delivering again

/-- What an exchange wrote, when its client was sent that much more. -/
theorem Exchange.written_eq {exchange : Exchange} {s : Session} {data : Bytes}
    (sent : exchange.session.client.socket.sent = s.client.socket.sent ++ data) :
    exchange.written s = data := by
  rw [written, sent, List.drop_left]

/-- One step. -/
theorem ProxyState.Writable.step {history : List Event} {p p' : ProxyState} {choice : Choice}
    {event : Event} (writable : p.Writable) (recorded : p.Recorded history)
    (delivers : choice.Delivers) (moves : p.Moves choice event p') : p'.Writable := by
  cases moves with
  | accept i socket buf url resp =>
    refine writable.setPhase (fun s moved => ?_) nofun
    rw [← Phase.waiting.inj moved]
    exact ⟨rfl, delivers⟩
  | close i => exact writable.setPhase nofun nofun
  | miss i cache waiting read same =>
    have delivering := (writable.waiting _ _ waiting).read (readRequest_kept read)
    have frame : ProxyState.Writable { p with cache := cache } :=
      ⟨writable.waiting, writable.forwarding, writable.whole⟩
    refine frame.setPhase nofun fun s address header moved => ?_
    rw [← (Phase.forwarding.inj moved).1]
    exact delivering
  | hit i ptr cache waiting read found same =>
    have delivering := (writable.waiting _ _ waiting).read (readRequest_kept read)
    have whole := writable.whole ptr (recorded.fresh _ ptr found)
    have frame : ProxyState.Writable { p with cache := cache } :=
      ⟨writable.waiting, writable.forwarding, writable.whole⟩
    exact frame.exchange i (serveHit_spec delivering _ whole.body_nil).2
  | answer i connection forwarding =>
    have delivering := writable.forwarding _ _ _ _ forwarding
    exact writable.exchange i (forward_sound delivering _ _ connection).delivering
  | @store i s address header stored connection cache forwarding kept put =>
    have delivering := writable.forwarding _ _ _ _ forwarding
    have sound := forward_sound delivering address header connection
    have frame : ProxyState.Writable { p with
        cache := cache
        instances := Function.update p.instances p.nextPtr stored
        nextPtr := p.nextPtr + 1 } := by
      refine ⟨writable.waiting, writable.forwarding, fun ptr old => ?_⟩
      dsimp only at old ⊢
      by_cases new : ptr = p.nextPtr
      · rw [new, Function.update_self]
        exact (sound.stored stored kept).2
      · rw [Function.update_of_ne new]
        exact writable.whole ptr (by omega)
    exact frame.exchange i sound.delivering
  | storeFails => exact ⟨writable.waiting, writable.forwarding, writable.whole⟩
  | crash => exact ⟨writable.waiting, writable.forwarding, writable.whole⟩

/-- Every run whose clients take what is written to them. -/
theorem ProxyState.run_writable {cacheSize : UInt64} {choices : List Choice} {events : List Event}
    {p : ProxyState} (delivers : ∀ choice ∈ choices, choice.Delivers)
    (ran : (start cacheSize).run choices = some (events, p)) : p.Writable := by
  have initial : (start cacheSize).Writable :=
    { waiting := fun _ _ stands => by cases stands
      forwarding := fun _ _ _ _ stands => by cases stands
      whole := fun ptr old => absurd old (Nat.not_lt_zero ptr) }
  have final := run_invariant
    (fun history p choice event p' inside
        (both : (p.alive = true → p.Recorded history) ∧ p.Writable) ran =>
      have recorded := both.1 (step_moves ran).1
      ⟨recorded.step (step_moves ran).2,
        both.2.step recorded (delivers choice inside) (step_moves ran).2⟩)
    ⟨fun _ => start_recorded cacheSize, initial⟩ ran
  exact final.2

/-- Events that store nothing under a key do not change what was stored last. -/
theorem lastPut_silent {key : Bytes} {before between : List Event} {event : Event}
    {stored : CacheInstance} (put : event.put key = some stored)
    (silent : ∀ event ∈ between, event.put key = none) :
    lastPut key (before ++ event :: between) = some stored := by
  have none_ : between.filterMap (Event.put key) = [] := List.filterMap_eq_nil_iff.mpr silent
  rw [lastPut, List.filterMap_append, List.filterMap_cons_some put, none_, List.getLast?_append]
  rfl

/-- Whatever is put into the cache was written to the client of that exchange, its body has the
announced length and was not sent in chunks, and the assertion on its size holds; every later hit
before the next `put` under the key writes the same bytes. -/
theorem stored_written (cacheSize : UInt64) (choices : List Choice) (events : List Event)
    (p : ProxyState) (ran : (ProxyState.start cacheSize).run choices = some (events, p))
    (delivers : ∀ choice ∈ choices, choice.Delivers) (before after : List Event) (i : ℕ)
    (a : Address) (written : Bytes) (stored : CacheInstance)
    (answered : events = before ++ .answered i a written (some stored) :: after) :
    (written = stored.header.getHeader ++ stored.body.getBody ∧
      stored.body.getBodySize = stored.header.getBodySize.toNat ∧
        stored.header.isChunked = false ∧
          stored.getTotSize =
            .ok (UInt64.ofNat (stored.header.getHeaderSize + stored.body.getBodySize))) ∧
      ∀ between rest j b served told, after = between ++ .hit j b served told :: rest →
        b.key = a.key → (∀ event ∈ between, event.put a.key = none) → told = written := by
  subst answered
  have exact_ : written = stored.bytes ∧ stored.Whole := by
    obtain ⟨earlier, choice, later, p₁, p₂, rfl, ranBefore, stepped, -⟩ :=
      ProxyState.run_split ran
    have writable := ProxyState.run_writable
      (fun choice inside => delivers choice (List.mem_append_left _ inside)) ranBefore
    cases (ProxyState.step_moves stepped).2 with
    | @store i s address header stored connection cache forwarding kept put =>
      have delivering := writable.forwarding _ _ _ _ forwarding
      obtain ⟨sent, whole⟩ := (forward_sound delivering a header connection).stored stored kept
      exact ⟨Exchange.written_eq sent, whole⟩
    | @storeFails i s address header stored connection forwarding kept =>
      have delivering := writable.forwarding _ _ _ _ forwarding
      obtain ⟨sent, whole⟩ := (forward_sound delivering a header connection).stored stored kept
      exact ⟨Exchange.written_eq sent, whole⟩
  obtain ⟨told, whole⟩ := exact_
  refine ⟨⟨told, whole.length, whole.plain, whole.getTotSize⟩, ?_⟩
  rintro between rest j b served again rfl sameKey silent
  have cut : before ++ .answered i a written (some stored) ::
      (between ++ .hit j b served again :: rest) =
        (before ++ .answered i a written (some stored) :: between) ++
          .hit j b served again :: rest := by
    rw [List.append_assoc, List.cons_append]
  rw [cut] at ran
  obtain ⟨earlier, choice, later, p₁, p₂, rfl, ranBefore, stepped, -⟩ := ProxyState.run_split ran
  obtain ⟨alive, moves⟩ := ProxyState.step_moves stepped
  have recorded := ProxyState.run_recorded ranBefore alive
  have writable := ProxyState.run_writable
    (fun choice inside => delivers choice (List.mem_append_left _ inside)) ranBefore
  have put : Event.put a.key (.answered i a written (some stored)) = some stored := if_pos rfl
  have last := @lastPut_silent a.key before between _ stored put silent
  cases moves with
  | hit j ptr cache waiting read found same =>
    rw [sameKey] at found
    have served := Option.some.inj ((recorded.stored _ ptr found).symm.trans last)
    have delivering := (writable.waiting _ _ waiting).read (readRequest_kept read)
    have instance_ := writable.whole ptr (recorded.fresh _ ptr found)
    rw [told, ← served]
    exact Exchange.written_eq (serveHit_spec delivering _ instance_.body_nil).1

/-- The second client of a file is told what the first was told. -/
theorem stored_written_twice :
    (oneByteResponse.bytes = oneByteResponse.header.getHeader ++ oneByteResponse.body.getBody ∧
      oneByteResponse.body.getBodySize = oneByteResponse.header.getBodySize.toNat ∧
        oneByteResponse.header.isChunked = false ∧
          oneByteResponse.getTotSize = .ok (UInt64.ofNat
            (oneByteResponse.header.getHeaderSize + oneByteResponse.body.getBodySize))) ∧
      ∀ between rest j b served told,
        [Event.accepted 1, .hit 1 (fileAt 80) oneByteResponse oneByteResponse.bytes] =
            between ++ .hit j b served told :: rest → b.key = (fileAt 80).key →
          (∀ event ∈ between, event.put (fileAt 80).key = none) →
            told = oneByteResponse.bytes := by
  obtain ⟨p, ran⟩ := twoClients_samePort
  exact stored_written 100 _ _ p ran (by decide) [.accepted 0, .miss 0 (fileAt 80)] _ 0 (fileAt 80)
    _ oneByteResponse rfl

end TinyTools.Proxy
