import TinyTools.Proxy.Writing
import TinyTools.SimpleProxy.Rio

/-!
# The robust input and output package

Calls for a number of bytes and calls for a line share one buffer, in any order. Whatever the
segments in which the bytes arrive, each call answers what it would answer on the stream itself.
Writing moves the pointer on and asks for what is left only, so a buffer is written once.
-/

namespace TinyTools.SimpleProxy

open TinyTools.Lib TinyTools.Proxy

/-- `memcpy` into an array, from an index on. -/
def copyTo (array : Bytes) (i : ℕ) (data : Bytes) : Option Bytes :=
  if i + data.length ≤ array.length then
    some (array.take i ++ data ++ array.drop (i + data.length))
  else none

/-- `rio_readinitb`. -/
def Rio.readinitb (pending : List Segment) : Rio := ⟨[], pending, Nat.zero_le _⟩

/-- `rio_read`: no bytes at the end of the stream. -/
def Rio.read (rp : Rio) (n : ℕ) : Bytes × Rio :=
  let filled := if rp.buffered = [] then refill rp.pending else rp
  (filled.buffered.take n, ⟨filled.buffered.drop n, filled.pending, by
    rw [List.length_drop]
    exact (Nat.sub_le ..).trans filled.small⟩)

/-- No more is read than asked for. -/
theorem Rio.read_length (rp : Rio) (n : ℕ) : (rp.read n).1.length ≤ n := List.length_take_le ..

/-- The loop of `rio_readnb`: the array, the number of bytes read and the buffer behind them. -/
def Rio.readnbLoop (usrbuf : Bytes) (done nleft : ℕ) (rp : Rio) : Option (Bytes × ℕ × Rio) :=
  if nleft = 0 then some (usrbuf, done, rp)
  else
    match rp.read nleft with
    | ([], rp) => some (usrbuf, done, rp)
    | (byte :: rest, rp) => do
      let usrbuf ← copyTo usrbuf done (byte :: rest)
      readnbLoop usrbuf (done + (byte :: rest).length) (nleft - (byte :: rest).length) rp
termination_by nleft
decreasing_by
  simp only [List.length_cons]
  omega

/-- `rio_readnb`. -/
def Rio.readnb (rp : Rio) (usrbuf : Bytes) (n : ℕ) : Option (Bytes × ℕ × Rio) :=
  readnbLoop usrbuf 0 n rp

/-- A call that reads. -/
inductive RioCall
  /-- `rio_readnb`. -/
  | bytes (usrbuf : Bytes) (n : ℕ)
  /-- `rio_readlineb`. -/
  | line (usrbuf : Bytes) (maxlen : ℕ)
deriving DecidableEq

/-- The caller's array has room. -/
def RioCall.Fits : RioCall → Prop
  | .bytes usrbuf n => n ≤ usrbuf.length
  | .line usrbuf maxlen => 0 < maxlen ∧ maxlen ≤ usrbuf.length

/-- One call. -/
def RioCall.run (rp : Rio) : RioCall → Option (Bytes × ℕ × Rio)
  | .bytes usrbuf n => rp.readnb usrbuf n
  | .line usrbuf maxlen => rp.readlineb usrbuf maxlen

/-- Call after call: the arrays and the numbers answered. -/
def Rio.calls : Rio → List RioCall → Option (List (Bytes × ℕ))
  | _, [] => some []
  | rp, call :: later => do
    let (array, count, rp) ← call.run rp
    let answers ← rp.calls later
    return (array, count) :: answers

/-- The bytes of a stream that a call is for. -/
def RioCall.cut (stream : Bytes) : RioCall → Bytes
  | .bytes _ n => stream.take n
  | .line _ maxlen => takeLine (maxlen - 1) stream

/-- What a call answers on a stream. -/
def RioCall.answer (stream : Bytes) : RioCall → Bytes × ℕ
  | .bytes usrbuf n => (overwrite usrbuf (stream.take n), (stream.take n).length)
  | .line usrbuf maxlen => (overwrite usrbuf (takeLine (maxlen - 1) stream ++ [0]),
      (takeLine (maxlen - 1) stream).length)

/-- What calls answer on a stream, each one behind the bytes of the one before. -/
def streamCalls : Bytes → List RioCall → List (Bytes × ℕ)
  | _, [] => []
  | stream, call :: later =>
    call.answer stream :: streamCalls (stream.drop (call.cut stream).length) later

/-! ## Reading -/

/-- Copied behind what was stored. -/
theorem copyTo_overwrite {array stored data : Bytes}
    (room : stored.length + data.length ≤ array.length) :
    copyTo (overwrite array stored) stored.length data =
      some (overwrite array (stored ++ data)) := by
  have whole : (overwrite array stored).length = array.length := length_overwrite (by omega)
  unfold copyTo
  rw [whole, if_pos room]
  congr 1
  unfold overwrite
  rw [List.take_left' rfl, ← List.drop_drop, List.drop_left' rfl, List.drop_drop,
    List.length_append]

/-- What is read is the front of what was not read, and nothing only at its end. -/
theorem Rio.read_spec (rp : Rio) {n : ℕ} (some_ : 0 < n) :
    rp.unread = (rp.read n).1 ++ (rp.read n).2.unread ∧
      ((rp.read n).1 = [] → rp.unread = []) := by
  have same : rp.unread =
      (if rp.buffered = [] then refill rp.pending else rp).unread := by
    split_ifs with empty
    · rw [unread_refill, unread, empty, List.nil_append]
    · rfl
  have ended : (if rp.buffered = [] then refill rp.pending else rp).buffered = [] →
      rp.unread = [] := by
    split_ifs with empty
    · intro none
      have finished := readSegment_eq_nil (by decide) none
      rw [unread, empty, finished]
      rfl
    · intro none
      exact absurd none empty
  unfold read
  dsimp only
  constructor
  · rw [same, unread, unread, ← List.append_assoc, List.take_append_drop]
  · intro none
    rcases List.take_eq_nil_iff.mp none with zero | none
    · omega
    · exact ended none

/-- Bytes are stored behind those that were, up to the number asked for or the end. -/
theorem Rio.readnbLoop_eq (nleft : ℕ) (array stored : Bytes) (rp : Rio)
    (fits : stored.length + nleft ≤ array.length) :
    ∃ rp', readnbLoop (overwrite array stored) stored.length nleft rp =
        some (overwrite array (stored ++ rp.unread.take nleft),
          (stored ++ rp.unread.take nleft).length, rp') ∧
      rp'.unread = rp.unread.drop nleft := by
  induction nleft using Nat.strong_induction_on generalizing stored rp with
  | _ nleft ih =>
  unfold readnbLoop
  by_cases done : nleft = 0
  · refine ⟨rp, ?_, ?_⟩
    · rw [if_pos done, done, List.take_zero, List.append_nil]
    · rw [done, List.drop_zero]
  · rw [if_neg done]
    obtain ⟨front, ended⟩ := rp.read_spec (Nat.pos_of_ne_zero done)
    have short := rp.read_length nleft
    split
    · rename_i rest read
      rw [read] at front ended
      have none := ended rfl
      refine ⟨rest, ?_, ?_⟩
      · rw [none, List.take_nil, List.append_nil]
      · rw [none] at front
        rw [none, List.drop_nil]
        exact front.symm
    · rename_i byte data rest read
      rw [read] at front short
      dsimp only at front short
      have some_ : 0 < (byte :: data).length := Nat.succ_pos _
      obtain ⟨rp', later, left⟩ := ih (nleft - (byte :: data).length) (by omega)
        (stored ++ byte :: data) rest (by rw [List.length_append]; omega)
      refine ⟨rp', ?_, ?_⟩
      · rw [copyTo_overwrite (by omega), Option.bind_eq_bind, Option.bind_some,
          ← List.length_append, later, front, List.take_append, List.take_of_length_le short,
          List.append_assoc]
      · rw [left, front, List.drop_append, List.drop_of_length_le short, List.nil_append]

/-- A call answers what it would on the stream. -/
theorem RioCall.run_eq (call : RioCall) (fits : call.Fits) (rp : Rio) :
    ∃ rp', call.run rp = some ((call.answer rp.unread).1, (call.answer rp.unread).2, rp') ∧
      rp'.unread = rp.unread.drop (call.cut rp.unread).length := by
  cases call with
  | bytes usrbuf n =>
    obtain ⟨rp', read, left⟩ := Rio.readnbLoop_eq n usrbuf [] rp (by
      rw [List.length_nil, Nat.zero_add]
      exact fits)
    refine ⟨rp', read, ?_⟩
    rw [left, cut, List.length_take]
    by_cases short : n ≤ rp.unread.length
    · rw [Nat.min_eq_left short]
    · rw [List.drop_of_length_le (by omega), List.drop_of_length_le (by omega)]
  | line usrbuf maxlen => exact rp.readlineb_eq fits.1 fits.2

/-- Whatever the segments in which a stream arrives, and whatever the calls for bytes and for lines
that share the buffer, as long as the callers' arrays have room every call answers what it would
answer on the stream itself, and stores nothing outside its array. -/
theorem rio_refines_stream (segments : List Segment) (calls : List RioCall)
    (fits : ∀ call ∈ calls, call.Fits) :
    (Rio.readinitb segments).calls calls =
      some (streamCalls (segments.flatMap Segment.bytes) calls) := by
  have all (rp : Rio) (calls : List RioCall) (fits : ∀ call ∈ calls, call.Fits) :
      rp.calls calls = some (streamCalls rp.unread calls) := by
    induction calls generalizing rp with
    | nil => rfl
    | cons call later ih =>
      obtain ⟨first, rest⟩ := List.forall_mem_cons.mp fits
      obtain ⟨rp', ran, left⟩ := call.run_eq first rp
      rw [Rio.calls, ran, Option.bind_eq_bind, Option.bind_some]
      dsimp only
      rw [ih rp' rest, left]
      rfl
  exact all (Rio.readinitb segments) calls fits

/-- A line and some bytes of a stream that arrives in three segments. -/
theorem rio_refines_stream_three :
    (Rio.readinitb [⟨71, bytes "ET "⟩, ⟨47, bytes "\r"⟩, ⟨10, bytes "body"⟩]).calls
        [.line (List.replicate 16 0) 16, .bytes (List.replicate 8 0) 3] =
      some (streamCalls (bytes "GET /\r\nbody")
        [.line (List.replicate 16 0) 16, .bytes (List.replicate 8 0) 3]) :=
  rio_refines_stream _ _ (by simp [RioCall.Fits])

/-! ## Writing -/

/-- The loop of `rio_writen`, with the results of the coming calls. -/
def rioWritenLoop (n : ℕ) : ℕ → ℕ → List WriteResult → Written
  | _, 0, _ => ⟨some n, []⟩
  | bufp, nleft + 1, [] => ⟨none, [⟨bufp, nleft + 1, none⟩]⟩
  | bufp, nleft + 1, .interrupted :: later =>
    let rest := rioWritenLoop n bufp (nleft + 1) later
    { rest with calls := ⟨bufp, nleft + 1, some .interrupted⟩ :: rest.calls }
  | bufp, nleft + 1, .failed :: _ => ⟨some (-1), [⟨bufp, nleft + 1, some .failed⟩]⟩
  | bufp, nleft + 1, .upTo limit some_ :: later =>
    let nwritten := min limit (nleft + 1)
    let rest := rioWritenLoop n (bufp + nwritten) (nleft + 1 - nwritten) later
    { rest with calls := ⟨bufp, nleft + 1, some (.upTo limit some_)⟩ :: rest.calls }

/-- `rio_writen`. -/
def rioWriten (usrbuf n : ℕ) (results : List WriteResult) : Written :=
  rioWritenLoop n usrbuf n results

/-- Bytes handed on by one call and by the others are one piece. -/
theorem region_add (memory : ℕ → UInt8) (address first rest : ℕ) :
    region memory address first ++ region memory (address + first) rest =
      region memory address (first + rest) := by
  unfold region
  rw [List.range_add, List.map_append, List.map_map]
  congr 1
  apply List.map_congr_left
  intro i _
  rw [Function.comp_apply, Nat.add_assoc]

/-- What the calls of the loop do. -/
structure WritesOnce (memory : ℕ → UInt8) (n bufp nleft : ℕ) (results : List WriteResult)
    (w : Written) : Prop where
  /-- The socket gets the buffer from its front on, each byte once. -/
  handed : ∃ count ≤ nleft, Proxy.handed memory w.calls = region memory bufp count ∧
    (w.value = some (n : ℤ) → count = nleft)
  /-- The calls stay in the buffer. -/
  inside : ∀ call ∈ w.calls, bufp ≤ call.address ∧ call.address + call.length ≤ bufp + nleft
  /-- An error is answered exactly when a call fails. -/
  failed : w.value = some (-1) ↔ ∃ call ∈ w.calls, call.result = some .failed
  /-- Where no call fails and the socket takes bytes often enough, the buffer is written. -/
  ends : (∀ result ∈ results, result ≠ .failed) →
    nleft ≤ (results.filter (· ≠ .interrupted)).length → w.value = some (n : ℤ)

variable {memory : ℕ → UInt8} {n bufp nleft : ℕ} {results : List WriteResult} {w : Written}

/-- A call that takes nothing is put in front. -/
theorem handed_cons_none {call : WriteCall} (none_ : call.taken = 0) (calls : List WriteCall) :
    handed memory (call :: calls) = handed memory calls := by
  rw [handed, List.flatMap_cons, none_]
  rfl

/-- Nothing is left. -/
theorem WritesOnce.done : WritesOnce memory n bufp 0 results ⟨some n, []⟩ where
  handed := ⟨0, le_rfl, rfl, fun _ => rfl⟩
  inside call among := by cases among
  failed := by
    constructor
    · intro error
      have number := Option.some.inj error
      omega
    · rintro ⟨call, among, -⟩
      cases among
  ends _ _ := rfl

/-- The socket does not answer. -/
theorem WritesOnce.blocked (some_ : 0 < nleft) :
    WritesOnce memory n bufp nleft [] ⟨none, [⟨bufp, nleft, none⟩]⟩ where
  handed := ⟨0, Nat.zero_le _, handed_cons_none rfl [], nofun⟩
  inside call among := by
    rw [List.mem_singleton.mp among]
    exact ⟨le_rfl, le_rfl⟩
  failed := by
    constructor
    · nofun
    · rintro ⟨call, among, result⟩
      rw [List.mem_singleton.mp among] at result
      cases result
  ends _ enough := by
    rw [List.filter_nil, List.length_nil] at enough
    omega

/-- A call fails. -/
theorem WritesOnce.error :
    WritesOnce memory n bufp nleft (.failed :: results)
      ⟨some (-1), [⟨bufp, nleft, some .failed⟩]⟩ where
  handed := by
    refine ⟨0, Nat.zero_le _, handed_cons_none rfl [], fun value => ?_⟩
    have number := Option.some.inj value
    omega
  inside call among := by
    rw [List.mem_singleton.mp among]
    exact ⟨le_rfl, le_rfl⟩
  failed := ⟨fun _ => ⟨_, List.mem_singleton_self _, rfl⟩, fun _ => rfl⟩
  ends fine _ := absurd rfl (fine .failed List.mem_cons_self)

/-- A call is interrupted. -/
theorem WritesOnce.interrupted (rest : WritesOnce memory n bufp nleft results w) :
    WritesOnce memory n bufp nleft (.interrupted :: results)
      { w with calls := ⟨bufp, nleft, some .interrupted⟩ :: w.calls } where
  handed := by
    obtain ⟨count, few, got, whole⟩ := rest.handed
    exact ⟨count, few, (handed_cons_none rfl w.calls).trans got, whole⟩
  inside := List.forall_mem_cons.mpr ⟨⟨le_rfl, le_rfl⟩, rest.inside⟩
  failed := by
    rw [rest.failed]
    constructor
    · rintro ⟨call, among, result⟩
      exact ⟨call, List.mem_cons_of_mem _ among, result⟩
    · rintro ⟨call, among, result⟩
      rcases List.mem_cons.mp among with rfl | later
      · cases result
      · exact ⟨call, later, result⟩
  ends fine enough := rest.ends (fun result among => fine result (List.mem_cons_of_mem _ among))
    enough

/-- The socket takes some bytes, and the others are left. -/
theorem WritesOnce.taken {limit : ℕ} {some_ : 0 < limit}
    (rest : WritesOnce memory n (bufp + min limit nleft) (nleft - min limit nleft) results w) :
    WritesOnce memory n bufp nleft (.upTo limit some_ :: results)
      { w with calls := ⟨bufp, nleft, some (.upTo limit some_)⟩ :: w.calls } where
  handed := by
    obtain ⟨count, few, got, whole⟩ := rest.handed
    refine ⟨min limit nleft + count, by omega, ?_, fun value => ?_⟩
    · rw [← region_add, ← got]
      rfl
    · have all := whole value
      omega
  inside := by
    refine List.forall_mem_cons.mpr ⟨⟨le_rfl, le_rfl⟩, fun call among => ?_⟩
    obtain ⟨low, high⟩ := rest.inside call among
    omega
  failed := by
    rw [rest.failed]
    constructor
    · rintro ⟨call, among, result⟩
      exact ⟨call, List.mem_cons_of_mem _ among, result⟩
    · rintro ⟨call, among, result⟩
      rcases List.mem_cons.mp among with rfl | later
      · cases result
      · exact ⟨call, later, result⟩
  ends fine enough := by
    apply rest.ends fun result among => fine result (List.mem_cons_of_mem _ among)
    rw [List.filter_cons_of_pos (by simp), List.length_cons] at enough
    omega

/-- The loop writes what is left once. -/
theorem rioWritenLoop_once (memory : ℕ → UInt8) (n : ℕ) (results : List WriteResult)
    (bufp nleft : ℕ) :
    WritesOnce memory n bufp nleft results (rioWritenLoop n bufp nleft results) := by
  induction results generalizing bufp nleft with
  | nil =>
    cases nleft with
    | zero => exact .done
    | succ nleft => exact .blocked (Nat.succ_pos nleft)
  | cons result later ih =>
    cases nleft with
    | zero => exact .done
    | succ nleft =>
      cases result with
      | interrupted => exact .interrupted (ih bufp (nleft + 1))
      | failed => exact .error
      | upTo limit some_ => exact .taken (ih _ _)

/-- Whatever `write` answers, `rio_writen` does what `writex` should: it hands the buffer over from
its front on, each byte once and nothing outside it, answers an error exactly when a call fails, and
has written the whole buffer when it answers its size, which it does once the socket has taken bytes
often enough. -/
theorem rioWriten_writesAll (memory : ℕ → UInt8) (usrbuf n : ℕ) (results : List WriteResult) :
    WritesAll memory usrbuf n (rioWriten usrbuf n results) ∧
      WritesOnce memory n usrbuf n results (rioWriten usrbuf n results) := by
  have once := rioWritenLoop_once memory n results usrbuf n
  refine ⟨⟨fun value => ?_, once.inside, fun call among result => ?_⟩, once⟩
  · obtain ⟨count, -, got, whole⟩ := once.handed
    rwa [whole value] at got
  · exact once.failed.mpr ⟨call, among, result⟩

end TinyTools.SimpleProxy
