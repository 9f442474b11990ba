import TinyTools.Proxy.Reading

/-!
# Lines and blocks from one buffer

Lines and blocks are read in any order and with any sizes through one line buffer. The two readers
agree on how many bytes are left in it, but a block that takes only part of them leaves the pointer
where it was. Nothing is lost or repeated as long as every block empties the buffer, or what is left
in it repeats itself so that the difference does not show.
-/

namespace TinyTools.Proxy

open TinyTools.Lib

/-- A call that reads from a connection. -/
inductive Call
  /-- `readlinex`. -/
  | line (size : ℕ) (room : 2 ≤ size)
  /-- `readx`. -/
  | block (size : ℕ) (room : 1 ≤ size)

/-- The bytes a call returns, none for an error, and the connection behind it. -/
def Call.run (c : CommClient) : Call → Bytes × CommClient
  | .line size _ => ((c.readlinex size).bytes, (c.readlinex size).client)
  | .block size _ => ((c.readx size).1.getD [], (c.readx size).2)

/-- The bytes that calls return one after the other, and the connection behind them. -/
def runCalls (c : CommClient) : List Call → Bytes × CommClient
  | [] => ([], c)
  | call :: rest =>
    let (chunk, next) := call.run c
    let (later, last) := runCalls next rest
    (chunk ++ later, last)

/-- A read of a full buffer. -/
def Call.full : Call := .block MAXLINE (by decide)

/-- At no point of some calls has a byte been lost or repeated: whatever was returned so far, and
whatever full buffers return behind it, is the beginning of the stream. -/
def ReadsInOrder (c : CommClient) (calls : List Call) : Prop :=
  ∀ before, before <+: calls → ∀ more,
    (runCalls c (before ++ List.replicate more Call.full)).1 <+: c.unread

/-- A block finds nothing in the line buffer, or asks for everything that is left there, or what is
left there repeats itself after as many bytes as it asks for. -/
def Call.Careful (c : CommClient) : Call → Prop
  | .line _ _ => True
  | .block size _ => c.line.counter ≤ size ∨
      c.line.left.drop size = c.line.left.take (c.line.counter - size)

/-- Every one of some calls is careful where it takes place. -/
def CarefulCalls (c : CommClient) : List Call → Prop
  | [] => True
  | call :: rest => call.Careful c ∧ CarefulCalls (call.run c).2 rest

variable {c : CommClient}

/-! ## One call -/

/-- What is left behind a block that takes part of the buffer. -/
theorem LineBuffer.left_count_of_lt {line : LineBuffer} {size : ℕ} (part : size < line.counter) :
    (line.count size).left = line.left.take (line.counter - size) := by
  rw [left, left, List.take_take, Nat.min_eq_left (by omega)]
  rfl

/-- What a call does to an open connection on which reading does not fail. -/
theorem Call.run_spec (call : Call) (open_ : c.isOpen = true) (intact : c.socket.broken = false) :
    c.Kept (call.run c).2 ∧
      (call.run c).1.length + (call.run c).2.unread.length = c.unread.length ∧
        (call.Careful c ↔ c.unread = (call.run c).1 ++ (call.run c).2.unread) := by
  cases call with
  | line size room =>
    obtain ⟨kept, split, -⟩ := c.lineLoop_spec (size - 1)
    have length := congrArg List.length split
    rw [List.length_append] at length
    exact ⟨kept, length.symm, fun _ => split, fun _ => trivial⟩
  | block size room =>
    obtain ⟨kept, result⟩ := c.readx_spec room
    cases answered : (c.readx size).1 with
    | none =>
      rw [answered] at result
      have broken := (result open_).2
      rw [intact] at broken
      cases broken
    | some chunk =>
      rw [answered] at result
      obtain ⟨length, -, whole, -⟩ := result
      simp only [run, answered, Option.getD_some]
      refine ⟨kept, length, ?_⟩
      by_cases all : c.line.counter ≤ size
      · exact ⟨fun _ => (whole all).1, fun _ => Or.inl all⟩
      · have part : size < c.line.counter := Nat.lt_of_not_le all
        have buffered : 0 < c.line.counter := by omega
        have taken : c.readx size =
            (some (c.line.left.take size), { c with line := c.line.count size }) := if_pos buffered
        have chunked : chunk = c.line.left.take size := by
          rw [taken] at answered
          exact (Option.some.inj answered).symm
        have rest := List.take_append_drop size c.line.left
        rw [chunked, taken]
        simp only [Careful, CommClient.unread, LineBuffer.left_count_of_lt part]
        rw [← List.append_assoc, List.append_cancel_right_eq]
        constructor
        · rintro (impossible | repeats)
          · exact absurd impossible all
          · rw [← repeats]
            exact rest.symm
        · intro same
          exact Or.inr (List.append_cancel_left (rest.trans same))

/-! ## Runs -/

/-- Calls after other calls. -/
theorem runCalls_append (c : CommClient) (before after : List Call) :
    runCalls c (before ++ after) = ((runCalls c before).1 ++
      (runCalls (runCalls c before).2 after).1, (runCalls (runCalls c before).2 after).2) := by
  induction before generalizing c with
  | nil => rfl
  | cons call rest ih =>
    simp only [List.cons_append, runCalls, ih, List.append_assoc]

/-- Calls take as many bytes off the stream as they return. -/
theorem runCalls_length (calls : List Call) (open_ : c.isOpen = true)
    (intact : c.socket.broken = false) :
    c.Kept (runCalls c calls).2 ∧
      (runCalls c calls).1.length + (runCalls c calls).2.unread.length = c.unread.length := by
  induction calls generalizing c with
  | nil => exact ⟨.rfl, Nat.zero_add _⟩
  | cons call rest ih =>
    obtain ⟨kept, length, -⟩ := call.run_spec open_ intact
    obtain ⟨kept', length'⟩ := ih (kept.isOpen.trans open_) (kept.broken.trans intact)
    refine ⟨kept.trans kept', ?_⟩
    simp only [runCalls, List.length_append]
    omega

/-- Careful calls return the beginning of the stream and leave the rest of it. -/
theorem CarefulCalls.split {calls : List Call} (careful : CarefulCalls c calls)
    (open_ : c.isOpen = true) (intact : c.socket.broken = false) :
    c.unread = (runCalls c calls).1 ++ (runCalls c calls).2.unread := by
  induction calls generalizing c with
  | nil => rfl
  | cons call rest ih =>
    obtain ⟨kept, -, exact_⟩ := call.run_spec open_ intact
    have later := ih careful.2 (kept.isOpen.trans open_) (kept.broken.trans intact)
    rw [exact_.mp careful.1, later]
    simp only [runCalls, List.append_assoc]

/-- Full buffers are read carefully. -/
theorem carefulCalls_full (c : CommClient) (more : ℕ) :
    CarefulCalls c (List.replicate more Call.full) := by
  induction more generalizing c with
  | zero => trivial
  | succ more ih =>
    have inside := c.line.inside
    have small := c.line.small
    have all : c.line.counter ≤ MAXLINE := by omega
    exact ⟨Or.inl all, ih _⟩

/-- Enough full buffers return everything. -/
theorem drain (open_ : c.isOpen = true) (intact : c.socket.broken = false) {more : ℕ}
    (enough : c.unread.length ≤ more) :
    (runCalls c (List.replicate more Call.full)).1 = c.unread := by
  induction more generalizing c with
  | zero =>
    have empty : c.unread = [] := List.eq_nil_of_length_eq_zero (by omega)
    rw [empty]
    rfl
  | succ more ih =>
    obtain ⟨kept, length, exact_⟩ := Call.full.run_spec open_ intact
    have split := exact_.mp (carefulCalls_full c 1).1
    have shorter : (Call.full.run c).2.unread.length ≤ more := by
      by_cases empty : (Call.full.run c).1 = []
      · obtain ⟨-, result⟩ := c.readx_spec (show 0 < MAXLINE by decide)
        have nothing : c.unread = [] := by
          cases answered : (c.readx MAXLINE).1 with
          | none =>
            rw [answered] at result
            exact (result open_).1
          | some chunk =>
            rw [answered] at result
            have same : (Call.full.run c).1 = chunk := congrArg (Option.getD · []) answered
            exact (result.2.2.2 (same.symm.trans empty)).1
        rw [nothing, List.length_nil] at length
        omega
      · have moved := List.length_pos_iff.mpr empty
        omega
    rw [List.replicate_succ]
    have later := ih (kept.isOpen.trans open_) (kept.broken.trans intact) shorter
    simp only [runCalls, later]
    exact split.symm

/-- Where bytes and full buffers behind them begin the stream, the bytes left are the rest of it. -/
theorem unread_of_prefix (calls : List Call) (open_ : c.isOpen = true)
    (intact : c.socket.broken = false)
    (begins : ∀ more, (runCalls c (calls ++ List.replicate more Call.full)).1 <+: c.unread) :
    c.unread = (runCalls c calls).1 ++ (runCalls c calls).2.unread := by
  obtain ⟨kept, length⟩ := runCalls_length calls open_ intact
  have all := begins (runCalls c calls).2.unread.length
  rw [runCalls_append] at all
  have drained := drain (kept.isOpen.trans open_) (kept.broken.trans intact) (Nat.le_refl
    (runCalls c calls).2.unread.length)
  rw [drained] at all
  have whole := all.eq_of_length (by rw [List.length_append]; exact length)
  exact whole.symm

/-- Lines and blocks, read in any order and with any sizes, are at every point the beginning of the
stream exactly when every block is read carefully. -/
theorem readsInOrder_iff (c : CommClient) (open_ : c.isOpen = true)
    (intact : c.socket.broken = false) (calls : List Call) :
    ReadsInOrder c calls ↔ CarefulCalls c calls := by
  induction calls generalizing c with
  | nil =>
    refine ⟨fun _ => trivial, fun _ before inside more => ?_⟩
    rw [List.prefix_nil.mp inside, List.nil_append]
    exact ⟨_, ((carefulCalls_full c more).split open_ intact).symm⟩
  | cons call rest ih =>
    obtain ⟨kept, -, exact_⟩ := call.run_spec open_ intact
    have later := ih _ (kept.isOpen.trans open_) (kept.broken.trans intact)
    constructor
    · intro order
      have first : [call] <+: call :: rest := List.prefix_append [call] rest
      have split := unread_of_prefix [call] open_ intact fun more => order [call] first more
      have here : c.unread = (call.run c).1 ++ (call.run c).2.unread := by
        simpa only [runCalls, List.append_nil] using split
      refine ⟨exact_.mpr here, later.mp fun before inside more => ?_⟩
      have begins := order (call :: before) (List.cons_prefix_cons.mpr ⟨rfl, inside⟩) more
      rw [List.cons_append] at begins
      simp only [runCalls] at begins
      rw [here] at begins
      exact (List.prefix_append_right_inj _).mp begins
    · rintro ⟨careful, onward⟩ before inside more
      have here := exact_.mp careful
      cases before with
      | nil =>
        rw [List.nil_append]
        exact ⟨_, ((carefulCalls_full c more).split open_ intact).symm⟩
      | cons head tail =>
        obtain ⟨rfl, inside'⟩ := List.cons_prefix_cons.mp inside
        have begins := later.mpr onward tail inside' more
        rw [List.cons_append]
        simp only [runCalls]
        rw [here]
        exact (List.prefix_append_right_inj _).mpr begins

/-- A line, a block that empties the buffer and a block behind it. -/
theorem readsInOrder_emptied :
    ReadsInOrder (.arriving ["a\nbcd", "ef"])
        [.line 8 (by decide), .block 3 (by decide), .block 1 (by decide)] ↔
      CarefulCalls (.arriving ["a\nbcd", "ef"])
        [.line 8 (by decide), .block 3 (by decide), .block 1 (by decide)] :=
  readsInOrder_iff _ rfl rfl _

/-- Behind a line, two blocks of one byte return the same byte. -/
theorem readx_repeats : (runCalls (.arriving ["a\nbcd"])
      [.line 8 (by decide), .block 1 (by decide), .block 1 (by decide)]).1 = bytes "a\nbb" ∧
    ¬ bytes "a\nbb" <+: (CommClient.arriving ["a\nbcd"]).unread := by
  decide

end TinyTools.Proxy
