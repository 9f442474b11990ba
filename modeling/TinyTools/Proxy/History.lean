import TinyTools.Proxy.Sessions

/-!
# What a hit serves

The map holds under each key what was stored last under it, so a hit serves what an earlier request
with the same key was answered. Keys do not tell commands and ports apart.
-/

namespace TinyTools.Proxy

open TinyTools.Lib

/-! ## Entries and events -/

/-- An address that some request line gave. -/
def Address.Accepted (address : Address) : Prop := ∃ url, parseAddress url = some address

/-- A request has an accepted address, and its header was read behind its line. -/
theorem readRequest_request {s s' : Session} {address : Address} {header : HttpHeader}
    (read : readRequest s = .request s' address header) :
    address.Accepted ∧ ∃ buf, s'.client =
      (readHeader (s.client.readlinex MAXLINE).client buf HttpHeader.new).client := by
  unfold readRequest at read
  dsimp only at read
  split_ifs at read
  split at read
  · cases read
  · rename_i other accepted
    split_ifs at read
    obtain ⟨rfl, rfl, -⟩ := Incoming.request.inj read
    exact ⟨⟨_, accepted⟩, _, rfl⟩

/-- The address of a request was accepted. -/
theorem readRequest_accepted {s s' : Session} {address : Address} {header : HttpHeader}
    (read : readRequest s = .request s' address header) : address.Accepted :=
  (readRequest_request read).1

/-- The state agrees with the events: every entry of the map is what was stored last under its key,
and addresses were accepted. -/
structure ProxyState.Recorded (history : List Event) (p : ProxyState) : Prop where
  /-- Pointers are handed out in order. -/
  fresh : ∀ key ptr, p.cache.memoryMap.lookup key = some ptr → ptr < p.nextPtr
  /-- An entry is the last instance stored under its key. -/
  stored : ∀ key ptr, p.cache.memoryMap.lookup key = some ptr →
    lastPut key history = some (p.instances ptr)
  /-- A session that waits for a response has an accepted address. -/
  forwarding : ∀ i s address header, p.sessions i = some (.forwarding s address header) →
    address.Accepted
  /-- Requests have accepted addresses. -/
  accepted : ∀ event ∈ history, ∀ address, event.address = some address → address.Accepted

/-- An event that stores nothing leaves the entries as they are. -/
theorem ProxyState.Recorded.extend {history : List Event} {p p' : ProxyState}
    (recorded : p.Recorded history) {event : Event} (silent : ∀ key, event.put key = none)
    (map : p'.cache.memoryMap = p.cache.memoryMap) (ptrs : p'.nextPtr = p.nextPtr)
    (instances : p'.instances = p.instances)
    (phases : ∀ i s address header, p'.sessions i = some (.forwarding s address header) →
      address.Accepted)
    (accepted : ∀ address, event.address = some address → address.Accepted) :
    p'.Recorded (history ++ [event]) where
  fresh key ptr inside := by
    rw [ptrs]
    exact recorded.fresh key ptr (map ▸ inside)
  stored key ptr inside := by
    rw [lastPut_append, silent, instances]
    exact recorded.stored key ptr (map ▸ inside)
  forwarding := phases
  accepted other inside := by
    rcases List.mem_append.mp inside with old | new
    · exact recorded.accepted other old
    · rw [List.mem_singleton.mp new]
      exact accepted

/-- When one session moves on, a session stands where that one has moved or where it stood. -/
theorem ProxyState.setPhase_cases {p : ProxyState} {i j : ℕ} {phase other : Phase}
    (stands : (p.setPhase i phase).sessions j = some other) :
    other = phase ∨ p.sessions j = some other := by
  unfold setPhase at stands
  dsimp only at stands
  by_cases same : j = i
  · rw [same, Function.update_self] at stands
    exact Or.inl (Option.some.inj stands).symm
  · rw [Function.update_of_ne same] at stands
    exact Or.inr stands

/-- What holds of the addresses that sessions wait with, when one session moves on. -/
theorem ProxyState.forwarding_setPhase {p : ProxyState} {property : Address → Prop}
    (before : ∀ i s address header, p.sessions i = some (.forwarding s address header) →
      property address) {i : ℕ} {phase : Phase}
    (moved : ∀ s address header, phase = .forwarding s address header → property address)
    (j : ℕ) (s : Session) (address : Address) (header : HttpHeader)
    (stands : (p.setPhase i phase).sessions j = some (.forwarding s address header)) :
    property address := by
  rcases setPhase_cases stands with here | stood
  · exact moved s address header here.symm
  · exact before j s address header stood

/-- A session behind an exchange does not wait for a response. -/
theorem Exchange.phase_ne_forwarding (exchange : Exchange) (s : Session) (address : Address)
    (header : HttpHeader) : exchange.phase ≠ .forwarding s address header := by
  unfold phase
  split <;> exact nofun

/-- When a session goes on behind an exchange, the others wait as before. -/
theorem ProxyState.forwarding_exchange {p : ProxyState} {property : Address → Prop}
    (before : ∀ i s address header, p.sessions i = some (.forwarding s address header) →
      property address) (i : ℕ) (exchange : Exchange) :
    ∀ j s address header,
      (p.setPhase i exchange.phase).sessions j = some (.forwarding s address header) →
        property address :=
  forwarding_setPhase before fun s address header waits =>
    absurd waits (exchange.phase_ne_forwarding s address header)

/-- One step. -/
theorem ProxyState.Recorded.step {history : List Event} {p p' : ProxyState} {choice : Choice}
    {event : Event} (recorded : p.Recorded history) (moves : p.Moves choice event p')
    (alive : p'.alive = true) : p'.Recorded (history ++ [event]) := by
  cases moves with
  | accept i socket buf url resp =>
    exact recorded.extend (fun _ => rfl) rfl rfl rfl
      (forwarding_setPhase recorded.forwarding nofun) nofun
  | close i =>
    exact recorded.extend (fun _ => rfl) rfl rfl rfl
      (forwarding_setPhase recorded.forwarding nofun) nofun
  | miss i cache waiting read same =>
    have accepted := readRequest_accepted read
    refine recorded.extend (fun _ => rfl) same rfl rfl
      (forwarding_setPhase recorded.forwarding fun s address header moved => ?_)
      fun address asked => ?_
    · obtain ⟨-, rfl, -⟩ := Phase.forwarding.inj moved
      exact accepted
    · rwa [← Option.some.inj asked]
  | hit i ptr cache waiting read found same =>
    refine recorded.extend (fun _ => rfl) same rfl rfl
      (forwarding_exchange recorded.forwarding i _) fun address asked => ?_
    rw [← Option.some.inj asked]
    exact readRequest_accepted read
  | answer i connection forwarding =>
    refine recorded.extend (fun _ => rfl) rfl rfl rfl
      (forwarding_exchange recorded.forwarding i _) fun address asked => ?_
    rw [← Option.some.inj asked]
    exact recorded.forwarding _ _ _ _ forwarding
  | @store i s address header stored connection cache forwarding kept put =>
    have updated (ptr : ℕ) (old : ptr < p.nextPtr) :
        Function.update p.instances p.nextPtr stored ptr = p.instances ptr :=
      Function.update_of_ne (Nat.ne_of_lt old) ..
    refine ⟨fun key ptr inside => ?_, fun key ptr inside => ?_,
      forwarding_exchange recorded.forwarding i _, fun other inside => ?_⟩
    · rcases Cache.put_map put inside with ⟨-, rfl⟩ | ⟨-, old⟩
      · exact Nat.lt_succ_self _
      · exact Nat.lt_succ_of_lt (recorded.fresh key ptr old)
    · rw [lastPut_append]
      rcases Cache.put_map put inside with ⟨rfl, rfl⟩ | ⟨elsewhere, old⟩
      · have put_ : Event.put address.key (.answered i address
            ((forward s address header connection).written s) (some stored)) = some stored :=
          if_pos rfl
        have newest : Function.update p.instances p.nextPtr stored p.nextPtr = stored :=
          Function.update_self ..
        rw [put_, Option.some_or]
        exact congrArg some newest.symm
      · have put_ : Event.put key (.answered i address
            ((forward s address header connection).written s) (some stored)) = none :=
          if_neg (Ne.symm elsewhere)
        rw [put_, Option.none_or, recorded.stored key ptr old]
        exact congrArg some (updated ptr (recorded.fresh key ptr old)).symm
    · rcases List.mem_append.mp inside with old | new
      · exact recorded.accepted other old
      · intro address asked
        rw [List.mem_singleton.mp new] at asked
        rw [← Option.some.inj asked]
        exact recorded.forwarding _ _ _ _ forwarding
  | storeFails => cases alive
  | crash => cases alive

/-- Nothing is recorded at the start. -/
theorem ProxyState.start_recorded (cacheSize : UInt64) : (start cacheSize).Recorded [] where
  fresh _ _ inside := by cases inside
  stored _ _ inside := by cases inside
  forwarding _ _ _ _ stands := by cases stands
  accepted _ inside := by cases inside

/-- Every run of a living process is recorded. -/
theorem ProxyState.run_recorded {cacheSize : UInt64} {choices : List Choice} {events : List Event}
    {p : ProxyState} (ran : (start cacheSize).run choices = some (events, p))
    (alive : p.alive = true) : p.Recorded events := by
  have final := run_invariant
    (fun history p choice event p' _ (recorded : p.alive = true → p.Recorded history) ran alive =>
      (recorded (step_moves ran).1).step (step_moves ran).2 alive)
    (fun _ => start_recorded cacheSize) ran
  exact final alive

/-! ## Hits answer the same request -/

/-- Requests with the same key agree in command, port, and in whether their address begins with a
slash. -/
def KeysAgree (events : List Event) : Prop :=
  ∀ a ∈ events.filterMap Event.address, ∀ b ∈ events.filterMap Event.address, a.key = b.key →
    a.command = b.command ∧ a.port = b.port ∧ (a.Rooted ↔ b.Rooted)

instance (events : List Event) : Decidable (KeysAgree events) :=
  inferInstanceAs (Decidable (∀ _ ∈ _, ∀ _ ∈ _, _ → _))

/-- Accepted requests with the same key name the same target exactly when they agree in command,
port, and in whether their address begins with a slash. In every run whose requests with the same
key agree so, what a hit serves was stored by an earlier request that names the same target. -/
theorem hit_sameTarget (cacheSize : UInt64) (choices : List Choice) (events : List Event)
    (p : ProxyState) (ran : (ProxyState.start cacheSize).run choices = some (events, p)) :
    (∀ u v a b, parseAddress u = some a → parseAddress v = some b → a.key = b.key →
      (a.SameTarget b ↔ a.command = b.command ∧ a.port = b.port ∧ (a.Rooted ↔ b.Rooted))) ∧
    (KeysAgree events →
      ∀ before after i a served written, events = before ++ .hit i a served written :: after →
        ∃ j b told, .answered j b told (some served) ∈ before ∧ b.SameTarget a) := by
  refine ⟨fun u v a b acceptedA acceptedB same => key_sameTarget_iff acceptedA acceptedB same, ?_⟩
  rintro agree before after i a served written rfl
  obtain ⟨earlier, choice, later, p₁, p₂, -, ranBefore, stepped, -⟩ := ProxyState.run_split ran
  obtain ⟨alive, moves⟩ := ProxyState.step_moves stepped
  have recorded := ProxyState.run_recorded ranBefore alive
  have asked : a ∈ (before ++ .hit i a served written :: after).filterMap Event.address :=
    List.mem_filterMap.mpr ⟨_, List.mem_append_right before List.mem_cons_self, rfl⟩
  cases moves with
  | hit i ptr cache waiting read found same =>
    obtain ⟨j, b, told, stored, sameKey⟩ := lastPut_stored (recorded.stored _ _ found)
    refine ⟨j, b, told, stored, ?_⟩
    obtain ⟨u, acceptedB⟩ := recorded.accepted _ stored b rfl
    obtain ⟨v, acceptedA⟩ := readRequest_accepted read
    refine (key_sameTarget_iff acceptedB acceptedA sameKey).mpr (agree b ?_ a asked sameKey)
    exact List.mem_filterMap.mpr ⟨_, List.mem_append_left _ stored, rfl⟩

/-- A client connects and says a text. -/
def connects (i : ℕ) (text : String) : Choice :=
  .accept i ⟨consSegment (bytes text) [], false, [], []⟩ [] [] []

/-- A server answers with a text. -/
def answers (i : ℕ) (text : String) : Choice :=
  .answer i (some ⟨consSegment (bytes text) [], false, [], []⟩)

/-- Two clients, one after the other. The response to the first has a body of one byte. -/
def twoClients (first second : String) : List Choice :=
  [connects 0 first, .request 0, answers 0 "HTTP/1.0 200 OK\r\nContent-Length: 1\r\n\r\na",
    connects 1 second, .request 1]

/-- The instance kept of that response. -/
def oneByteResponse : CacheInstance where
  header :=
    { HttpHeader.new with
      header := bytes "HTTP/1.0 200 OK\r\nContent-Length: 1\r\n\r\n"
      bodySize := 1 }
  body := ⟨bytes "a"⟩

/-- The address of a file on a port. -/
def fileAt (port : UInt16) : Address where
  command := bytes "GET"
  host := bytes "h"
  port := port
  file := bytes "/f"
  version := bytes "HTTP/1.0"

/-- The events in front of the second lookup. -/
def firstAnswered : List Event :=
  [.accepted 0, .miss 0 (fileAt 80),
    .answered 0 (fileAt 80) oneByteResponse.bytes (some oneByteResponse), .accepted 1]

/-- A second client that asks for the same file on the same port. -/
theorem twoClients_samePort : ∃ p, (ProxyState.start 100).run
    (twoClients "GET http://h/f HTTP/1.0\r\n\r\n" "GET http://h/f HTTP/1.0\r\n\r\n") =
      some (firstAnswered ++ [.hit 1 (fileAt 80) oneByteResponse oneByteResponse.bytes], p) := by
  have events : ((ProxyState.start 100).run (twoClients "GET http://h/f HTTP/1.0\r\n\r\n"
      "GET http://h/f HTTP/1.0\r\n\r\n")).map Prod.fst =
        some (firstAnswered ++ [.hit 1 (fileAt 80) oneByteResponse oneByteResponse.bytes]) := by
    decide +kernel
  obtain ⟨⟨all, p⟩, ran, same⟩ := Option.map_eq_some_iff.mp events
  exact ⟨p, same ▸ ran⟩

/-- A second client that asks for the file on another port is served what the first port said. -/
theorem twoClients_otherPort : ∃ p, (ProxyState.start 100).run
    (twoClients "GET http://h:80/f HTTP/1.0\r\n\r\n" "GET http://h:8080/f HTTP/1.0\r\n\r\n") =
      some (firstAnswered ++ [.hit 1 (fileAt 8080) oneByteResponse oneByteResponse.bytes], p) := by
  have events : ((ProxyState.start 100).run (twoClients "GET http://h:80/f HTTP/1.0\r\n\r\n"
      "GET http://h:8080/f HTTP/1.0\r\n\r\n")).map Prod.fst =
        some (firstAnswered ++ [.hit 1 (fileAt 8080) oneByteResponse oneByteResponse.bytes]) := by
    decide +kernel
  obtain ⟨⟨all, p⟩, ran, same⟩ := Option.map_eq_some_iff.mp events
  exact ⟨p, same ▸ ran⟩

/-- A hit on the same address. -/
theorem hit_sameTarget_twice :
    ((fileAt 80).SameTarget (fileAt 80) ↔ (fileAt 80).command = (fileAt 80).command ∧
      (fileAt 80).port = (fileAt 80).port ∧ ((fileAt 80).Rooted ↔ (fileAt 80).Rooted)) ∧
    ∃ j b told, .answered j b told (some oneByteResponse) ∈ firstAnswered ∧
      b.SameTarget (fileAt 80) := by
  obtain ⟨p, ran⟩ := twoClients_samePort
  obtain ⟨pairs, hits⟩ := hit_sameTarget 100 _ _ p ran
  have accepted : parseAddress (bytes "GET http://h/f HTTP/1.0\r\n") = some (fileAt 80) := by
    decide
  exact ⟨pairs _ _ _ _ accepted accepted rfl,
    hits (by decide) firstAnswered [] 1 _ _ _ rfl⟩

/-- A hit that serves the response of another port. -/
theorem hit_otherPort :
    ∃ cacheSize choices before i a served written p,
      (ProxyState.start cacheSize).run choices = some (before ++ [.hit i a served written], p) ∧
        ∀ j b told, .answered j b told (some served) ∈ before → ¬ b.SameTarget a := by
  obtain ⟨p, ran⟩ := twoClients_otherPort
  refine ⟨100, _, firstAnswered, 1, fileAt 8080, oneByteResponse, _, p, ran, ?_⟩
  intro j b told inside same
  have address : b ∈ firstAnswered.filterMap Event.address :=
    List.mem_filterMap.mpr ⟨_, inside, rfl⟩
  have other : ∀ b ∈ firstAnswered.filterMap Event.address, b.port ≠ 8080 := by decide
  exact other b address same.2.2.1

end TinyTools.Proxy
