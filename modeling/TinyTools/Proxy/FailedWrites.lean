import TinyTools.Proxy.Exchange

/-!
# Writes that fail

A miss notices every write to the client that fails, of the header as of any round of the body loop,
and closes both connections. Without one, the body loop of a response that is not chunked comes to
its end on every stream that does not break off.
-/

namespace TinyTools.Proxy

open TinyTools.Lib

/-- The bytes that a round of the body loop reads. -/
def Relay.taken (h : HttpHeader) (r : Relay) : Bytes :=
  if r.serverBodySize > 0 then (r.session.server.readx (MAXLINE - 1)).1.getD []
  else if h.isChunked then
    let line := r.session.server.readlinex MAXLINE
    if line.numBytes ≤ 0 then [] else line.bytes
  else []

/-- A write of the header or of the bytes of some round fails. -/
def WriteFails (h : HttpHeader) (s : Session) : Prop :=
  (s.client.writex h.getHeader).1 = none ∨
    ∃ r, Relay.Reaches h
      (Relay.start h { s with client := (s.client.writex h.getHeader).2 }) r ∧
        (r.session.client.writex (r.taken h)).1 = none

/-! ## Early ends -/

/-- An early end that closes both connections. -/
def Early.Shut (e : Early) : Prop :=
  e.2 = .closed ∧ e.1.client.isOpen = false ∧ e.1.server.isOpen = false

/-- Giving up closes both connections. -/
theorem giveUp_shut {α : Type} {s : Session} {e : Early}
    (gave : (giveUp s : Except Early α) = .error e) : e.Shut := by
  rw [← Except.error.inj gave]
  exact ⟨rfl, rfl, rfl⟩

/-- A round that closes the connections closes both. -/
theorem Relay.pass_closed {h : HttpHeader} {r : Relay} {numBytes : ℕ} {s : Session}
    (closed : r.pass h numBytes = .closed s) :
    s.client.isOpen = false ∧ s.server.isOpen = false := by
  unfold pass at closed
  dsimp only at closed
  split at closed
  · rw [← Turn.closed.inj closed]
    exact ⟨rfl, rfl⟩
  · split at closed <;> cases closed

/-- A round that closes the connections closes both. -/
theorem Relay.step_closed {h : HttpHeader} {r : Relay} {s : Session}
    (closed : r.step h = .closed s) : s.client.isOpen = false ∧ s.server.isOpen = false := by
  unfold step at closed
  split_ifs at closed
  · split at closed
    · rw [← Turn.closed.inj closed]
      exact ⟨rfl, rfl⟩
    · cases closed
    · exact pass_closed closed
  · dsimp only at closed
    split_ifs at closed
    · rw [← Turn.closed.inj closed]
      exact ⟨rfl, rfl⟩
    · exact pass_closed closed

/-- A body loop that fails ends the session. -/
theorem relayLoop_shut {h : HttpHeader} {rounds : ℕ} {r : Relay} {e : Early}
    (ran : relayLoop h rounds r = .error e) : e.Shut := by
  induction rounds generalizing r with
  | zero => cases ran
  | succ rounds ih =>
    unfold relayLoop at ran
    cases round : r.step h with
    | closed s =>
      rw [round] at ran
      rw [← Except.error.inj ran]
      exact ⟨rfl, Relay.step_closed round⟩
    | leave r' =>
      rw [round] at ran
      cases ran
    | more r' =>
      rw [round] at ran
      exact ih ran

/-- A response that fails ends the session. -/
theorem relayResponse_shut {h : HttpHeader} {s : Session} {e : Early}
    (ran : relayResponse h s = .error e) : e.Shut := by
  unfold relayResponse at ran
  split at ran
  · exact giveUp_shut ran
  · exact relayLoop_shut ran

/-! ## Writes of the body loop -/

variable {h : HttpHeader}

/-- A write keeps a connection open. -/
theorem CommClient.writex_isOpen (c : CommClient) (data : Bytes) :
    (c.writex data).2.isOpen = c.isOpen := by
  unfold writex
  split_ifs
  · rfl
  · rfl
  · split <;> rfl

/-- Passing on bytes whose write fails ends the exchange. -/
theorem Relay.pass_fails {r : Relay} {data tail : Bytes} (content : r.session.buf = data ++ tail)
    (fails : (r.session.client.writex data).1 = none) :
    ∃ s, r.pass h data.length = .closed s := by
  have taken : r.session.buf.take data.length = data := by rw [content, List.take_left]
  unfold pass
  rw [taken]
  cases wrote : r.session.client.writex data with
  | mk answer client =>
    rw [wrote] at fails
    rw [show answer = none from fails]
    exact ⟨_, rfl⟩

/-- A round whose write fails ends the exchange. -/
theorem Relay.step_fails {r : Relay} (fails : (r.session.client.writex (r.taken h)).1 = none) :
    ∃ s, r.step h = .closed s := by
  have nothing : (r.session.client.writex []).1 ≠ none := by
    intro none_
    cases none_
  unfold taken at fails
  unfold step
  split_ifs at fails ⊢ with remain chunked
  · cases read : r.session.server.readx (MAXLINE - 1) with
    | mk chunk server =>
      rw [read] at fails
      cases chunk with
      | none => exact ⟨_, rfl⟩
      | some chunk =>
        cases chunk with
        | nil => exact absurd fails nothing
        | cons byte chunk => exact pass_fails rfl fails
  · dsimp only at fails ⊢
    split_ifs at fails ⊢ with ended
    · exact absurd fails nothing
    · obtain ⟨tail, stored⟩ := (r.session.server.readlinex MAXLINE).store_eq r.session.buf
      exact pass_fails stored fails
  · exact absurd fails nothing

/-- A body loop with a failing write ends the exchange. -/
theorem relayLoop_fails {r r' : Relay} (reached : Relay.Reaches h r r')
    (fails : (r'.session.client.writex (r'.taken h)).1 = none) (rounds : ℕ)
    (enough : r.session.server.unread.length < rounds) :
    ∃ e, relayLoop h rounds r = .error e := by
  induction reached generalizing rounds with
  | refl r =>
    obtain ⟨s, closed⟩ := Relay.step_fails fails
    cases rounds with
    | zero => exact absurd enough (Nat.not_lt_zero _)
    | succ rounds => exact ⟨_, by rw [relayLoop, closed]⟩
  | more round later ih =>
    cases rounds with
    | zero => exact absurd enough (Nat.not_lt_zero _)
    | succ rounds =>
      have shorter := Relay.step_shorter round
      obtain ⟨e, ran⟩ := ih fails rounds (by omega)
      exact ⟨e, by rw [relayLoop, round]; exact ran⟩

/-- When a write fails the exchange ends early. -/
theorem relayResponse_fails {s : Session} (fails : WriteFails h s) :
    ∃ e, relayResponse h s = .error e := by
  unfold relayResponse
  cases wrote : s.client.writex h.getHeader with
  | mk answer client =>
    cases fails with
    | inl header =>
      rw [wrote] at header
      rw [show answer = none from header]
      exact ⟨_, rfl⟩
    | inr body =>
      cases answer with
      | none => exact ⟨_, rfl⟩
      | some count =>
        obtain ⟨r, reached, failed⟩ := body
        rw [wrote] at reached
        exact relayLoop_fails reached failed _ (Nat.lt_succ_self _)

end TinyTools.Proxy
