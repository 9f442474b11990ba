import TinyTools.Proxy.FailedWrites
import TinyTools.Proxy.Responses

/-!
# Incomplete exchanges

A response is incomplete when a write of it to the client fails, or when the origin's stream ends
before the empty line of the header or before the announced body. Of these, a hit notices no failed
write and takes an empty part for one, because its test is for zero. A miss notices every failed
write, but what it notes of the end of the stream is overwritten behind the body loop, so such an
exchange ends the session only when something else does.
-/

namespace TinyTools.Proxy

open TinyTools.Lib

/-- The session is over, and both connections are closed. -/
structure Exchange.Closed (e : Exchange) : Prop where
  /-- No further request is read. -/
  ending : e.ending = .closed
  /-- The connection to the client. -/
  client : e.session.client.isOpen = false
  /-- The connection to the server. -/
  server : e.session.server.isOpen = false

/-! ## Hits -/

/-- The origin is connected and was sent the request; the response is read in this state, and the
flag says whether the client ended its stream. -/
def Asked (s : Session) (address : Address) (clientHeader : HttpHeader)
    (connection : Option Socket) (s₂ : Session) (ended : Bool) : Prop :=
  ∃ s₁, sendHeader s address clientHeader connection = .ok s₁ ∧
    sendBody s₁ clientHeader = .ok (s₂, ended)

/-- The response to a miss is incomplete. -/
def MissIncomplete (s : Session) (address : Address) (clientHeader : HttpHeader)
    (connection : Option Socket) : Prop :=
  ∃ s₂ ended, Asked s address clientHeader connection s₂ ended ∧
    (NoStatusLine s₂ ∨ HeaderCut s₂ ∨ ∃ s₃ h code, readResponse s₂ = .ok (s₃, h, code) ∧
      (WriteFails h s₃ ∨ BodyCut s₂ s₃))

/-- The end of the origin's stream goes unnoticed: nothing fails, and the headers of both sides let
the connections stay open. -/
def Unnoticed (clientHeader : HttpHeader) (s₂ : Session) (ended : Bool) : Prop :=
  ∃ s₃ h code, readResponse s₂ = .ok (s₃, h, code) ∧ (HeaderCut s₂ ∨ BodyCut s₂ s₃) ∧
    ¬ WriteFails h s₃ ∧ clientHeader.isPersistent = true ∧ ended = false ∧
      h.isPersistent = true ∧ h.isChunked = false

/-- What goes wrong with an incomplete response: its end is not noticed, or the status line of a
header that is cut has no code. -/
def MissOverlooked (s : Session) (address : Address) (clientHeader : HttpHeader)
    (connection : Option Socket) : Prop :=
  ∃ s₂ ended, Asked s address clientHeader connection s₂ ended ∧
    (Unnoticed clientHeader s₂ ended ∨ HeaderCut s₂ ∧ statusCode s₂ = none)

/-! ## The end of an exchange -/

/-- A connected origin stays connected until the response is read. -/
theorem Asked.isOpen {s s₂ : Session} {address : Address} {clientHeader : HttpHeader}
    {connection : Option Socket} {ended : Bool}
    (asked : Asked s address clientHeader connection s₂ ended) : s₂.server.isOpen = true := by
  obtain ⟨s₁, connected, sent⟩ := asked
  have first : s₁.server.isOpen = true := by
    unfold sendHeader at connected
    dsimp only at connected
    split at connected
    · cases connected
    · rename_i server opened
      rw [← Except.ok.inj connected]
      dsimp only
      rw [CommClient.writex_isOpen, CommClient.writex_isOpen]
      unfold CommClient.openx at opened
      split_ifs at opened with already
      · rw [← Option.some.inj opened]
        exact already
      · obtain ⟨socket, -, same⟩ := Option.map_eq_some_iff.mp opened
        rw [← same]
  unfold sendBody at sent
  split_ifs at sent
  · split at sent
    · cases sent
    · rename_i chunk client read
      dsimp only at sent
      split at sent
      · cases sent
      · rename_i count server wrote
        rw [← (Prod.mk.inj (Except.ok.inj sent)).1]
        have kept := s₁.server.writex_isOpen ((overlay s₁.buf chunk).take chunk.length)
        rw [wrote] at kept
        exact kept.trans first
  · rw [← (Prod.mk.inj (Except.ok.inj sent)).1]
    exact first

/-- How an exchange that comes to its end leaves its session. -/
theorem finish_ending (code : ℤ) (clientClose : Bool) (r : Relay) :
    (clientClose = false ∧ h.isChunked = false ∧ h.isPersistent = true →
      (finish h code clientClose r).ending = .again) ∧
    (¬ (clientClose = false ∧ h.isChunked = false ∧ h.isPersistent = true) →
      (finish h code clientClose r).Closed) := by
  unfold finish
  dsimp only
  constructor
  · intro stays
    rw [stays.1, stays.2.1, stays.2.2]
    rfl
  · intro ends
    by_cases closes : (clientClose || h.isChunked) = true
    · rw [if_pos closes]
      exact ⟨rfl, rfl, rfl⟩
    · rw [if_neg closes]
      rw [Bool.or_eq_true, not_or, Bool.not_eq_true, Bool.not_eq_true] at closes
      have leaves : h.isPersistent = false := by
        by_contra stays
        exact ends ⟨closes.1, closes.2, Bool.eq_true_of_not_eq_false stays⟩
      rw [if_pos leaves]
      exact ⟨rfl, rfl, rfl⟩

/-! ## Exchanges -/

/-- An exchange that is handled. -/
inductive Handled
  /-- It is answered from the cache. -/
  | hit (i : CacheInstance)
  /-- It is answered through the origin, over the socket a new connection would get. -/
  | miss (address : Address) (clientHeader : HttpHeader) (connection : Option Socket)

/-- What is done. -/
def Handled.exchange (s : Session) : Handled → Exchange
  | .hit i => serveHit s i
  | .miss address clientHeader connection => forward s address clientHeader connection

/-- An early end that closes the connections is how the exchange ends. -/
theorem forward_shut {s : Session} {address : Address} {clientHeader : HttpHeader}
    {connection : Option Socket} {e : Early}
    (ran : forwardParts s address clientHeader connection = .error e) (shut : e.Shut) :
    (forward s address clientHeader connection).Closed := by
  unfold forward
  rw [ran]
  exact ⟨shut.1, shut.2.1, shut.2.2⟩

section

variable {s s₂ : Session} {address : Address} {clientHeader : HttpHeader}
  {connection : Option Socket} {ended : Bool}

/-- What an exchange does from the response on. -/
theorem Asked.forwardParts_eq (asked : Asked s address clientHeader connection s₂ ended) :
    forwardParts s address clientHeader connection = (do
      let (s, serverHeader, codeNum) ← readResponse s₂
      let r ← relayResponse serverHeader s
      return finish serverHeader codeNum (!clientHeader.isPersistent || ended) r) := by
  obtain ⟨s₁, connected, sent⟩ := asked
  unfold forwardParts
  rw [connected]
  change (sendBody s₁ clientHeader >>= _) = _
  rw [sent]
  rfl

/-- A response that was read and relayed ends the exchange. -/
theorem Asked.forward_finish (asked : Asked s address clientHeader connection s₂ ended)
    {s₃ : Session} {h : HttpHeader} {code : ℤ} {r : Relay}
    (read : readResponse s₂ = .ok (s₃, h, code)) (relayed : relayResponse h s₃ = .ok r) :
    forward s address clientHeader connection =
      finish h code (!clientHeader.isPersistent || ended) r := by
  have parts : forwardParts s address clientHeader connection =
      .ok (finish h code (!clientHeader.isPersistent || ended) r) := by
    rw [asked.forwardParts_eq, read]
    change (relayResponse h s₃ >>= _) = _
    rw [relayed]
    rfl
  unfold forward
  rw [parts]

/-- A response that cannot be read closes the connections, unless its status line has no code. -/
theorem Asked.closed_unread (asked : Asked s address clientHeader connection s₂ ended) {e : Early}
    (read : readResponse s₂ = .error e) (coded : NoStatusLine s₂ ∨ statusCode s₂ ≠ none) :
    (forward s address clientHeader connection).Closed := by
  have parts := asked.forwardParts_eq
  have responded := readResponse_responded s₂
  rw [read] at parts responded
  have gave : forwardParts s address clientHeader connection = .error e := parts
  generalize same : (Except.error e : Except Early (Session × HttpHeader × ℤ)) = result
    at responded
  cases responded with
  | nothing ended => exact forward_shut gave (giveUp_shut same.symm)
  | broken line code failed => exact forward_shut gave (giveUp_shut same.symm)
  | header line code server => cases same
  | noCode line none_ =>
    exfalso
    cases coded with
    | inl nothing => exact absurd line (by rw [show _ = _ from nothing]; exact lt_irrefl 0)
    | inr known => exact known none_

/-- A response that is read but incomplete closes the connections, unless its end is not noticed. -/
theorem Asked.closed_read (asked : Asked s address clientHeader connection s₂ ended)
    {s₃ : Session} {h : HttpHeader} {code : ℤ} (read : readResponse s₂ = .ok (s₃, h, code))
    (incident : WriteFails h s₃ ∨ HeaderCut s₂ ∨ BodyCut s₂ s₃)
    (noticed : ¬ Unnoticed clientHeader s₂ ended) :
    (forward s address clientHeader connection).Closed := by
  cases relayed : relayResponse h s₃ with
  | error e =>
    have gave : forwardParts s address clientHeader connection = .error e := by
      rw [asked.forwardParts_eq, read]
      change (relayResponse h s₃ >>= _) = _
      rw [relayed]
      rfl
    exact forward_shut gave (relayResponse_shut relayed)
  | ok r =>
    have wrote : ¬ WriteFails h s₃ := by
      intro fails
      obtain ⟨e, failed⟩ := relayResponse_fails fails
      rw [relayed] at failed
      cases failed
    have cut := incident.resolve_left wrote
    rw [asked.forward_finish read relayed]
    apply (finish_ending code _ r).2
    intro stays
    have clientStays := Bool.or_eq_false_iff.mp stays.1
    apply noticed
    refine ⟨s₃, h, code, read, cut, wrote, ?_, clientStays.2, stays.2.2, stays.2.1⟩
    simpa using clientStays.1

/-- An incomplete response of which nothing is overlooked closes the connections. -/
theorem MissIncomplete.closed (incomplete : MissIncomplete s address clientHeader connection)
    (noticed : ¬ MissOverlooked s address clientHeader connection) :
    (forward s address clientHeader connection).Closed := by
  obtain ⟨s₂, ended, asked, incident⟩ := incomplete
  have seen : ¬ Unnoticed clientHeader s₂ ended := fun unnoticed =>
    noticed ⟨s₂, ended, asked, Or.inl unnoticed⟩
  cases read : readResponse s₂ with
  | error e =>
    apply asked.closed_unread read
    cases incident with
    | inl nothing => exact Or.inl nothing
    | inr later =>
      cases later with
      | inl cut => exact Or.inr fun none_ => noticed ⟨s₂, ended, asked, Or.inr ⟨cut, none_⟩⟩
      | inr response =>
        obtain ⟨s₃, h, code, answered, -⟩ := response
        rw [read] at answered
        cases answered
  | ok result =>
    obtain ⟨s₃, h, code⟩ := result
    apply asked.closed_read read _ seen
    cases incident with
    | inl nothing => exact absurd nothing (not_noStatusLine read)
    | inr later =>
      cases later with
      | inl cut => exact Or.inr (Or.inl cut)
      | inr response =>
        obtain ⟨s₃', h', code', answered, incident⟩ := response
        rw [read] at answered
        cases answered
        exact incident.imp_right Or.inr

end

end TinyTools.Proxy
