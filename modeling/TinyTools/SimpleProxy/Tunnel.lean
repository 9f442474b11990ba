import TinyTools.SimpleProxy.RioCalls

/-!
# The tunnel of a CONNECT

Two threads pass bytes on, one from the client to the server and one back, until each has seen the
end of what it reads; then both sockets are closed. Whatever the order in which the threads run and
however few bytes a write takes, nothing is lost or doubled on the way. But the request was read
through a buffer, and the threads read the socket itself: bytes that were buffered behind the
request line never reach the server.
-/

namespace TinyTools.SimpleProxy

open TinyTools.Lib TinyTools.Proxy

/-- The answer to a CONNECT. -/
def established : Bytes := bytes "HTTP/1.1 200 Connection established\r\n\r\n"

/-- What a thread is about to do. -/
inductive Phase
  /-- `Rio_readp`. -/
  | reading
  /-- `Rio_writen`, with the bytes that are left to write. -/
  | writing (first : UInt8) (rest : Bytes)
  /-- The loop has ended. -/
  | ended
deriving DecidableEq

/-- A loop that passes bytes on: `forwarder`, and the loop of `secureTalk`. -/
structure Passing where
  /-- The segments that still arrive. -/
  incoming : List Segment
  /-- What it is about to do. -/
  phase : Phase
  /-- The bytes written so far. -/
  written : Bytes

/-- The bytes in the buffer of a loop. -/
def Phase.held : Phase → Bytes
  | .writing first rest => first :: rest
  | _ => []

/-- The phase with bytes to write. -/
def Phase.ofBytes : Bytes → Phase
  | [] => .reading
  | first :: rest => .writing first rest

/-- One call of a loop. -/
inductive Passing.Step : Passing → Passing → Prop
  /-- Bytes are read. -/
  | read {s : Passing} {first : UInt8} {rest : Bytes} {later : List Segment}
    (reads : s.phase = .reading) (got : readSegment MAXLINE s.incoming = (first :: rest, later)) :
    Step s ⟨later, .writing first rest, s.written⟩
  /-- Some of the bytes that were read are written. -/
  | write {s : Passing} {first : UInt8} {rest : Bytes} (writes : s.phase = .writing first rest)
    {count : ℕ} (some_ : 0 < count) :
    Step s ⟨s.incoming, .ofBytes ((first :: rest).drop count),
      s.written ++ (first :: rest).take count⟩
  /-- There is nothing more to read. -/
  | finish {s : Passing} {later : List Segment} (reads : s.phase = .reading)
    (got : readSegment MAXLINE s.incoming = ([], later)) : Step s ⟨later, .ended, s.written⟩

/-- Both loops, and whether the sockets were closed. -/
structure Tunnel where
  /-- From the client to the server. -/
  forwarder : Passing
  /-- From the server to the client. -/
  secureTalk : Passing
  /-- The sockets are closed. -/
  closed : Bool

/-- One call of either thread, or the closing of the sockets behind `pthread_join`. -/
inductive Tunnel.Step : Tunnel → Tunnel → Prop
  /-- `forwarder` goes on. -/
  | forwarder {s : Tunnel} {next : Passing} (step : s.forwarder.Step next) :
    Step s { s with forwarder := next }
  /-- `secureTalk` goes on. -/
  | secureTalk {s : Tunnel} {next : Passing} (step : s.secureTalk.Step next) :
    Step s { s with secureTalk := next }
  /-- Both have ended. -/
  | close {s : Tunnel} (joined : s.forwarder.phase = .ended) (ended : s.secureTalk.phase = .ended)
    (open_ : s.closed = false) : Step s { s with closed := true }

/-- A number of steps. -/
inductive Tunnel.Steps : ℕ → Tunnel → Tunnel → Prop
  /-- None. -/
  | none {s : Tunnel} : Steps 0 s s
  /-- One more. -/
  | more {k : ℕ} {s t u : Tunnel} (before : Steps k s t) (next : t.Step u) : Steps (k + 1) s u

/-- The tunnel when the request line has been read and the client has been answered. -/
def connectTunnel (client : Rio) (server : List Segment) : Tunnel where
  forwarder := ⟨client.pending, .reading, []⟩
  secureTalk := ⟨server, .reading, established⟩
  closed := false

/-! ## One loop -/

/-- The bytes that a loop has written, holds and will read. -/
def Passing.total (s : Passing) : Bytes :=
  s.written ++ s.phase.held ++ s.incoming.flatMap Segment.bytes

/-- The steps that are left. -/
def Passing.work (s : Passing) : ℕ :=
  2 * (s.incoming.flatMap Segment.bytes).length +
    match s.phase with
    | .reading => 1
    | .writing _ rest => rest.length + 2
    | .ended => 0

/-- A loop that has ended has read everything. -/
def Passing.Done (s : Passing) : Prop := s.phase = .ended → s.incoming = []

variable {s s' : Passing}

/-- The bytes to write are held. -/
theorem Phase.held_ofBytes (data : Bytes) : (Phase.ofBytes data).held = data := by
  cases data <;> rfl

/-- A step neither loses nor doubles a byte, and gets closer to the end. -/
theorem Passing.Step.spec (step : s.Step s') :
    s'.total = s.total ∧ s'.work < s.work ∧ s'.Done := by
  cases step with
  | @read first rest later reads got =>
    have bytes_ := readSegment_append MAXLINE s.incoming
    rw [got] at bytes_
    refine ⟨?_, ?_, nofun⟩
    · rw [total, total, reads, ← bytes_]
      simp only [Phase.held, List.append_assoc, List.nil_append]
    · have count := congrArg List.length bytes_
      rw [List.length_append, List.length_cons] at count
      rw [work, work, reads]
      dsimp only at count ⊢
      omega
  | @write first rest writes count some_ =>
    refine ⟨?_, ?_, ?_⟩
    · rw [total, total, writes, Phase.held_ofBytes, List.append_assoc s.written,
        List.take_append_drop]
      rfl
    · have less : ((first :: rest).drop count).length ≤ rest.length := by
        rw [List.length_drop, List.length_cons]
        omega
      rw [work, work, writes]
      apply Nat.add_lt_add_left
      cases left : (first :: rest).drop count with
      | nil => exact Nat.succ_lt_succ (Nat.succ_pos _)
      | cons byte others =>
        rw [left, List.length_cons] at less
        exact Nat.add_lt_add_right less 2
    · intro ended
      cases left : (first :: rest).drop count <;> rw [left] at ended <;> cases ended
  | @finish later reads got =>
    have none : s.incoming = [] := readSegment_eq_nil (by decide) (congrArg Prod.fst got)
    rw [none] at got
    obtain rfl := (Prod.mk.inj got).2
    refine ⟨?_, ?_, fun _ => rfl⟩
    · rw [total, total, reads, none]
      rfl
    · rw [work, work, reads, none]
      exact Nat.zero_lt_one

/-- A loop that has not ended goes on. -/
theorem Passing.exists_step (s : Passing) (going : s.phase ≠ .ended) : ∃ next, s.Step next := by
  cases phase : s.phase with
  | reading =>
    cases got : readSegment MAXLINE s.incoming with
    | mk data later =>
      cases data with
      | nil => exact ⟨_, .finish phase got⟩
      | cons first rest => exact ⟨_, .read phase got⟩
  | writing first rest => exact ⟨_, .write phase Nat.zero_lt_one⟩
  | ended => exact absurd phase going

/-! ## Both loops -/

/-- What every step keeps. -/
structure Tunnel.Passes (toServer toClient : Bytes) (s : Tunnel) : Prop where
  /-- The bytes for the server. -/
  up : s.forwarder.total = toServer
  /-- The bytes for the client. -/
  down : s.secureTalk.total = toClient
  /-- `forwarder` reads to the end. -/
  upDone : s.forwarder.Done
  /-- `secureTalk` reads to the end. -/
  downDone : s.secureTalk.Done
  /-- The sockets are open as long as either goes on. -/
  joined : s.closed = true → s.forwarder.phase = .ended ∧ s.secureTalk.phase = .ended

/-- The steps that are left. -/
def Tunnel.work (s : Tunnel) : ℕ :=
  s.forwarder.work + s.secureTalk.work + if s.closed then 0 else 1

variable {t t' : Tunnel} {toServer toClient : Bytes}

/-- A loop that has ended makes no step. -/
theorem Passing.Step.going (step : s.Step s') : s.phase ≠ .ended := by
  intro ended
  cases step with
  | read reads _ => rw [ended] at reads; cases reads
  | write writes _ => rw [ended] at writes; cases writes
  | finish reads _ => rw [ended] at reads; cases reads

/-- Every step keeps it, and gets closer to the end. -/
theorem Tunnel.Passes.step (passes : t.Passes toServer toClient) (step : t.Step t') :
    t'.Passes toServer toClient ∧ t'.work < t.work := by
  cases step with
  | forwarder step =>
    obtain ⟨same, less, done⟩ := step.spec
    refine ⟨⟨same.trans passes.up, passes.down, done, passes.downDone, fun closed => ?_⟩, ?_⟩
    · exact absurd (passes.joined closed).1 step.going
    · exact Nat.add_lt_add_right (Nat.add_lt_add_right less _) _
  | secureTalk step =>
    obtain ⟨same, less, done⟩ := step.spec
    refine ⟨⟨passes.up, same.trans passes.down, passes.upDone, done, fun closed => ?_⟩, ?_⟩
    · exact absurd (passes.joined closed).2 step.going
    · exact Nat.add_lt_add_right (Nat.add_lt_add_left less _) _
  | close joined ended open_ =>
    refine ⟨⟨passes.up, passes.down, passes.upDone, passes.downDone, fun _ => ⟨joined, ended⟩⟩, ?_⟩
    rw [work, work, open_]
    exact Nat.lt_succ_self _

/-- Every run keeps it, and is no longer than what is left at first. -/
theorem Tunnel.Passes.steps {k : ℕ} (passes : t.Passes toServer toClient) (run : Steps k t t') :
    t'.Passes toServer toClient ∧ k + t'.work ≤ t.work := by
  induction run with
  | none => exact ⟨passes, (Nat.zero_add _).le⟩
  | more before next ih =>
    obtain ⟨kept, short⟩ := ih passes
    obtain ⟨kept', less⟩ := kept.step next
    exact ⟨kept', by omega⟩

/-- Without a next step the sockets are closed. -/
theorem Tunnel.closed_of_stuck (stuck : ∀ t', ¬ t.Step t') : t.closed = true := by
  have up : t.forwarder.phase = .ended := by
    by_contra going
    obtain ⟨next, step⟩ := t.forwarder.exists_step going
    exact stuck _ (.forwarder step)
  have down : t.secureTalk.phase = .ended := by
    by_contra going
    obtain ⟨next, step⟩ := t.secureTalk.exists_step going
    exact stuck _ (.secureTalk step)
  by_contra open_
  exact stuck _ (.close up down (Bool.eq_false_iff.mpr open_))

/-- A loop that has ended has written everything. -/
theorem Passing.Done.written (done : s.Done) (ended : s.phase = .ended) : s.written = s.total := by
  rw [total, ended, done ended]
  simp only [Phase.held, List.flatMap_nil, List.append_nil]

/-! ## The request line -/

/-- A line that ends in the buffer is read without another `read`. -/
theorem Rio.readLoop_pending {room n count : ℕ} {usrbuf array : Bytes} {rp rp' : Rio}
    (inside : 10 ∈ rp.buffered.take room)
    (read : readLoop room usrbuf n rp = some (array, count, rp')) : rp'.pending = rp.pending := by
  induction room generalizing usrbuf n rp with
  | zero =>
    rw [List.take_zero] at inside
    cases inside
  | succ room ih =>
    obtain ⟨buffered, pending, small⟩ := rp
    cases buffered with
    | nil =>
      rw [List.take_nil] at inside
      cases inside
    | cons c rest =>
      have byte : Rio.readByte ⟨c :: rest, pending, small⟩ =
          some (c, ⟨rest, pending, Nat.le_of_succ_le small⟩) := rfl
      rw [readLoop, byte] at read
      obtain ⟨stored, -, later⟩ := Option.bind_eq_some_iff.mp read
      by_cases newline : c = 10
      · rw [if_pos newline] at later
        obtain ⟨ended, -, same⟩ := Option.map_eq_some_iff.mp later
        obtain ⟨-, -, rfl⟩ : ended = array ∧ n + 1 = count ∧ _ = rp' := by
          simpa only [Prod.mk.injEq] using same
        rfl
      · rw [if_neg newline] at later
        have next : 10 ∈ rest.take room := by
          rcases List.mem_cons.mp inside with same | rest
          · exact absurd same.symm newline
          · exact rest
        exact @ih _ _ ⟨rest, pending, Nat.le_of_succ_le small⟩ next later

/-- A request line that arrives within one segment takes that segment off the socket and no more. -/
theorem readlineb_pending {first : Segment} {others : List Segment} {usrbuf array : Bytes}
    {maxlen count : ℕ} {client : Rio} (line : 10 ∈ first.bytes.take (maxlen - 1))
    (small : first.bytes.length ≤ RIO_BUFSIZE)
    (read : (Rio.readinitb (first :: others)).readlineb usrbuf maxlen =
      some (array, count, client)) : client.pending = others := by
  have filled : Rio.refill (first :: others) = ⟨first.bytes, others, small⟩ := by
    unfold Rio.refill
    simp only [readSegment, List.take_of_length_le small, List.drop_of_length_le small, consSegment]
  obtain ⟨room, counted⟩ : ∃ room, maxlen - 1 = room + 1 := by
    cases size : maxlen - 1 with
    | zero =>
      rw [size, List.take_zero] at line
      cases line
    | succ room => exact ⟨room, rfl⟩
  have byte : (Rio.readinitb (first :: others)).readByte =
      some (first.first, ⟨first.rest, others, Nat.le_of_succ_le small⟩) := by
    have refilled : (Rio.readinitb (first :: others)).readByte =
        (Rio.refill (first :: others)).next := rfl
    rw [refilled, filled]
    rfl
  have byte' : Rio.readByte ⟨first.bytes, others, small⟩ =
      some (first.first, ⟨first.rest, others, Nat.le_of_succ_le small⟩) := rfl
  have same : Rio.readLoop (room + 1) usrbuf 0 (Rio.readinitb (first :: others)) =
      Rio.readLoop (room + 1) usrbuf 0 ⟨first.bytes, others, small⟩ := by
    rw [Rio.readLoop, Rio.readLoop, byte, byte']
  unfold Rio.readlineb at read
  rw [counted] at read line
  rw [same] at read
  exact @Rio.readLoop_pending _ _ _ _ _ ⟨first.bytes, others, small⟩ _ line read

/-- Nothing has been passed on yet but the answer. -/
theorem connectTunnel_passes (client : Rio) (server : List Segment) :
    (connectTunnel client server).Passes (client.pending.flatMap Segment.bytes)
      (established ++ server.flatMap Segment.bytes) where
  up := rfl
  down := by simp only [connectTunnel, Passing.total, Phase.held, List.append_nil]
  upDone ended := by cases ended
  downDone ended := by cases ended
  joined closed := by cases closed

/-- In every run of the tunnel of a CONNECT, whatever the segments and however the threads take
turns: at any time the server has got a front part of the bytes that arrive after the segments read
for the request line, and the client a front part of the answer and the bytes of the server; the
sockets stay open until both have got all of it, which takes no more steps than twice the bytes and
a few; and the bytes read along with the request line are the ones that the server never gets. -/
theorem connect_tunnel (segments server : List Segment) (buf1 : Bytes)
    (room : buf1.length = MAXLINE) :
    ∃ array count client,
      (Rio.readinitb segments).readlineb buf1 MAXLINE = some (array, count, client) ∧
      segments.flatMap Segment.bytes = takeLine (MAXLINE - 1) (segments.flatMap Segment.bytes) ++
        client.buffered ++ client.pending.flatMap Segment.bytes ∧
      (∀ first others, segments = first :: others → 10 ∈ first.bytes.take (MAXLINE - 1) →
        first.bytes.length ≤ RIO_BUFSIZE → client.pending = others) ∧
      ∀ k t, Tunnel.Steps k (connectTunnel client server) t →
        t.forwarder.written <+: client.pending.flatMap Segment.bytes ∧
        t.secureTalk.written <+: established ++ server.flatMap Segment.bytes ∧
        k ≤ 2 * (client.pending.flatMap Segment.bytes).length +
          2 * (server.flatMap Segment.bytes).length + 3 ∧
        (t.closed = true → t.forwarder.written = client.pending.flatMap Segment.bytes ∧
          t.secureTalk.written = established ++ server.flatMap Segment.bytes) ∧
        (t.closed = false → ∃ t', t.Step t') := by
  obtain ⟨client, read, left⟩ :=
    (Rio.readinitb segments).readlineb_eq (by decide : 0 < MAXLINE) room.ge
  have stream : (Rio.readinitb segments).unread = segments.flatMap Segment.bytes := rfl
  rw [stream] at left
  refine ⟨_, _, client, read, ?_, ?_, ?_⟩
  · have whole := takeLine_append_drop (MAXLINE - 1) (segments.flatMap Segment.bytes)
    rw [← left, Rio.unread, ← List.append_assoc] at whole
    exact whole.symm
  · rintro first others rfl line small
    exact readlineb_pending line small read
  · intro k t run
    obtain ⟨passes, short⟩ := (connectTunnel_passes client server).steps run
    have work : (connectTunnel client server).work =
        2 * (client.pending.flatMap Segment.bytes).length +
          2 * (server.flatMap Segment.bytes).length + 3 := by
      simp only [connectTunnel, Tunnel.work, Passing.work, Bool.false_eq_true, if_false]
      omega
    refine ⟨?_, ?_, by omega, fun closed => ?_, fun open_ => ?_⟩
    · rw [← passes.up, Passing.total, List.append_assoc]
      exact List.prefix_append ..
    · rw [← passes.down, Passing.total, List.append_assoc]
      exact List.prefix_append ..
    · obtain ⟨up, down⟩ := passes.joined closed
      rw [passes.upDone.written up, passes.downDone.written down]
      exact ⟨passes.up, passes.down⟩
    · by_contra stuck
      have closed := Tunnel.closed_of_stuck fun t' step => stuck ⟨t', step⟩
      rw [open_] at closed
      cases closed

/-- A header that arrives behind the request line is passed on to the server when it comes in a
segment of its own. -/
theorem connect_tunnel_header :
    ∃ array count client, (Rio.readinitb [⟨67, bytes "ONNECT a:1 HTTP/1.1\r\n"⟩,
        ⟨72, bytes "ost: a\r\n\r\n"⟩]).readlineb (List.replicate MAXLINE 0) MAXLINE =
          some (array, count, client) ∧
      ∀ k t, Tunnel.Steps k (connectTunnel client []) t → t.closed = true →
        t.forwarder.written = bytes "Host: a\r\n\r\n" := by
  obtain ⟨array, count, client, read, -, behind, runs⟩ :=
    connect_tunnel [⟨67, bytes "ONNECT a:1 HTTP/1.1\r\n"⟩, ⟨72, bytes "ost: a\r\n\r\n"⟩] []
      (List.replicate MAXLINE 0) List.length_replicate
  refine ⟨array, count, client, read, fun k t run closed => ?_⟩
  have pending := behind _ _ rfl (by decide) (by decide)
  obtain ⟨-, -, -, done, -⟩ := runs k t run
  rw [(done closed).1, pending]
  rfl

end TinyTools.SimpleProxy
