import TinyTools.Proxy.CommClient

/-!
# Writing a buffer

`write` takes some of the bytes it is asked to, is interrupted or fails. The loop of `writex` counts
down what remains and moves the pointer on, but asks for the whole size every time. It does what it
should exactly as long as it makes one pass.
-/

namespace TinyTools.Proxy

open TinyTools.Lib

/-- What a call of `write` answers. -/
inductive WriteResult
  /-- The socket takes bytes, at least one and no more than this. -/
  | upTo (limit : ℕ) (some_ : 0 < limit)
  /-- `EINTR`. -/
  | interrupted
  /-- Another error. -/
  | failed
deriving DecidableEq

/-- A call of `write` that was made. -/
structure WriteCall where
  /-- Where the bytes start. -/
  address : ℕ
  /-- The number of bytes asked for. -/
  length : ℕ
  /-- The answer, none while the call blocks. -/
  result : Option WriteResult
deriving DecidableEq

/-- The number of bytes the socket took. -/
def WriteCall.taken (call : WriteCall) : ℕ :=
  match call.result with
  | some (.upTo limit _) => min limit call.length
  | _ => 0

/-- The bytes of the memory from an address on. -/
def region (memory : ℕ → UInt8) (address length : ℕ) : Bytes :=
  (List.range length).map fun i => memory (address + i)

/-- The bytes handed to the socket. -/
def handed (memory : ℕ → UInt8) (calls : List WriteCall) : Bytes :=
  calls.flatMap fun call => region memory call.address call.taken

/-- What `_write` answers. -/
inductive WriteReturn
  /-- The number of bytes taken. -/
  | count (taken : ℕ)
  /-- An error. -/
  | error
  /-- The last call still blocks. -/
  | blocked
deriving DecidableEq

/-- The loop of `_write`, with the results of the coming calls: its answer, the calls it makes and
the results left. -/
def writeLoop (buf size : ℕ) :
    List WriteResult → WriteReturn × List WriteCall × List WriteResult
  | [] => (.blocked, [⟨buf, size, none⟩], [])
  | .interrupted :: later =>
    let (answer, calls, left) := writeLoop buf size later
    (answer, ⟨buf, size, some .interrupted⟩ :: calls, left)
  | .failed :: later => (.error, [⟨buf, size, some .failed⟩], later)
  | .upTo limit some_ :: later =>
    (.count (min limit size), [⟨buf, size, some (.upTo limit some_)⟩], later)

/-- `CommClient::_write`. -/
def writeFd (isOpen : Bool) (buf size : ℕ) (results : List WriteResult) :
    WriteReturn × List WriteCall × List WriteResult :=
  if isOpen = false then (.error, [], results) else writeLoop buf size results

/-- A count uses results up. -/
theorem writeFd_shorter {isOpen : Bool} {buf size taken : ℕ} {results : List WriteResult}
    (answered : (writeFd isOpen buf size results).1 = .count taken) :
    (writeFd isOpen buf size results).2.2.length < results.length := by
  unfold writeFd at *
  split_ifs at *
  induction results with
  | nil => cases answered
  | cons result later ih =>
    cases result with
    | interrupted => exact Nat.lt_succ_of_lt (ih answered)
    | failed => cases answered
    | upTo limit some_ => exact Nat.lt_succ_self later.length

/-- The result of `writex`. -/
structure Written where
  /-- The number it answers, none while a call blocks. -/
  value : Option ℤ
  /-- The calls of `write` it has made. -/
  calls : List WriteCall

/-- The loop of `writex`. -/
def writexLoop (isOpen : Bool) (size : ℕ) (buf : ℕ) (numRemain : ℤ) (results : List WriteResult) :
    Written :=
  if numRemain > 0 then
    match answered : writeFd isOpen buf size results with
    | (.error, calls, _) => ⟨some (-1), calls⟩
    | (.blocked, calls, _) => ⟨none, calls⟩
    | (.count numWrite, calls, left) =>
      let later := writexLoop isOpen size (buf + numWrite) (numRemain - numWrite) left
      { later with calls := calls ++ later.calls }
  else ⟨some size, []⟩
termination_by results.length
decreasing_by
  have shorter := writeFd_shorter (congrArg Prod.fst answered)
  rwa [answered] at shorter

/-- `CommClient::writex`. -/
def writex (isOpen : Bool) (buf size : ℕ) (results : List WriteResult) : Written :=
  writexLoop isOpen size buf size results

/-! ## What it should do -/

/-- A buffer is written completely or not at all as far as the answer says, and no byte outside it
is passed to `write`. -/
structure WritesAll (memory : ℕ → UInt8) (buf size : ℕ) (w : Written) : Prop where
  /-- An answer of the size means that the socket has got the buffer once. -/
  complete : w.value = some (size : ℤ) → handed memory w.calls = region memory buf size
  /-- The calls stay in the buffer. -/
  inside : ∀ call ∈ w.calls, buf ≤ call.address ∧ call.address + call.length ≤ buf + size
  /-- A failed call is answered by an error. -/
  failed : ∀ call ∈ w.calls, call.result = some .failed → w.value = some (-1)

/-- The first answer of `write` that is not an interruption takes less than the buffer. -/
def FirstShort (size : ℕ) (results : List WriteResult) : Prop :=
  ∃ limit some_, (results.dropWhile (· = .interrupted)).head? = some (.upTo limit some_) ∧
    limit < size

variable {memory : ℕ → UInt8} {buf size : ℕ}

/-! ## One pass -/

/-- The calls of one pass that are interrupted. -/
def interruptions (buf size : ℕ) (results : List WriteResult) : List WriteCall :=
  (results.takeWhile (· = .interrupted)).map fun _ => ⟨buf, size, some .interrupted⟩

/-- Interrupted calls ask for the buffer and hand nothing over. -/
theorem mem_interruptions {results : List WriteResult} {call : WriteCall}
    (made : call ∈ interruptions buf size results) : call = ⟨buf, size, some .interrupted⟩ := by
  obtain ⟨-, -, same⟩ := List.mem_map.mp made
  exact same.symm

/-- Interrupted calls hand nothing over. -/
theorem handed_interruptions (memory : ℕ → UInt8) (buf size : ℕ) (results : List WriteResult) :
    handed memory (interruptions buf size results) = [] := by
  apply List.flatMap_eq_nil_iff.mpr
  intro call made
  rw [mem_interruptions made]
  rfl

/-- One pass is decided by the first result that is not an interruption. -/
theorem writeLoop_eq (results : List WriteResult) :
    writeLoop buf size results =
      match results.dropWhile (· = .interrupted) with
      | .upTo limit some_ :: later => (.count (min limit size),
          interruptions buf size results ++ [⟨buf, size, some (.upTo limit some_)⟩], later)
      | .failed :: later => (.error,
          interruptions buf size results ++ [⟨buf, size, some .failed⟩], later)
      | _ => (.blocked, interruptions buf size results ++ [⟨buf, size, none⟩], []) := by
  induction results with
  | nil => rfl
  | cons result later ih =>
    cases result with
    | upTo limit some_ => rfl
    | failed => rfl
    | interrupted =>
      rw [writeLoop, ih]
      have onward : (WriteResult.interrupted :: later).dropWhile (· = .interrupted) =
          later.dropWhile (· = .interrupted) := rfl
      have waits : interruptions buf size (.interrupted :: later) =
          ⟨buf, size, some .interrupted⟩ :: interruptions buf size later := rfl
      rw [onward, waits]
      cases later.dropWhile (· = .interrupted) with
      | nil => rfl
      | cons first rest => cases first <;> rfl

/-- Every pass makes a call, for the size it is given. -/
theorem writeLoop_call (buf size : ℕ) (results : List WriteResult) :
    ∃ call ∈ (writeLoop buf size results).2.1, call.address = buf ∧ call.length = size := by
  induction results with
  | nil => exact ⟨_, List.mem_singleton_self _, rfl, rfl⟩
  | cons result later ih =>
    cases result with
    | upTo limit some_ => exact ⟨_, List.mem_singleton_self _, rfl, rfl⟩
    | failed => exact ⟨_, List.mem_singleton_self _, rfl, rfl⟩
    | interrupted =>
      obtain ⟨call, made, asked⟩ := ih
      exact ⟨call, List.mem_cons_of_mem _ made, asked⟩

/-! ## The loop -/

/-- With nothing left the loop answers the size. -/
theorem writexLoop_done (isOpen : Bool) (size buf : ℕ) {numRemain : ℤ} (done : ¬ numRemain > 0)
    (results : List WriteResult) :
    writexLoop isOpen size buf numRemain results = ⟨some size, []⟩ := by
  rw [writexLoop, if_neg done]

/-- One pass of the loop on an open socket. -/
theorem writexLoop_pass (size buf : ℕ) {numRemain : ℤ} (more : numRemain > 0)
    (results : List WriteResult) :
    writexLoop true size buf numRemain results =
      match writeLoop buf size results with
      | (.error, calls, _) => ⟨some (-1), calls⟩
      | (.blocked, calls, _) => ⟨none, calls⟩
      | (.count numWrite, calls, left) =>
        let later := writexLoop true size (buf + numWrite) (numRemain - numWrite) left
        { later with calls := calls ++ later.calls } := by
  have opened : writeFd true buf size results = writeLoop buf size results := if_neg (by decide)
  rw [writexLoop, if_pos more]
  split <;> rename_i answered <;> rw [opened] at answered <;> rw [answered]

/-- A pass that ends the loop writes all or fails. -/
theorem WritesAll.of_last {results : List WriteResult} {last : WriteCall} {value : Option ℤ}
    (asked : last.address = buf ∧ last.length = size)
    (complete : value = some (size : ℤ) → last.taken = size)
    (failed : last.result = some .failed → value = some (-1)) :
    WritesAll memory buf size ⟨value, interruptions buf size results ++ [last]⟩ where
  complete whole := by
    have nothing := handed_interruptions memory buf size results
    rw [handed] at nothing ⊢
    rw [List.flatMap_append, nothing, List.flatMap_singleton, complete whole, asked.1]
    rfl
  inside call made := by
    rcases List.mem_append.mp made with waited | here
    · rw [mem_interruptions waited]
      exact ⟨Nat.le_refl _, Nat.le_refl _⟩
    · rw [List.mem_singleton.mp here, asked.1, asked.2]
      exact ⟨Nat.le_refl _, Nat.le_refl _⟩
  failed call made failure := by
    rcases List.mem_append.mp made with waited | here
    · rw [mem_interruptions waited] at failure
      cases failure
    · rw [List.mem_singleton.mp here] at failure
      exact failed failure

/-- Nothing is written where there is nothing to write. -/
theorem writesAll_empty (memory : ℕ → UInt8) (isOpen : Bool) (buf : ℕ)
    (results : List WriteResult) : WritesAll memory buf 0 (writex isOpen buf 0 results) := by
  rw [writex, writexLoop_done isOpen 0 buf (by decide)]
  constructor
  · intro _
    rfl
  · intro call made
    cases made
  · intro call made
    cases made

/-- Nothing is written to a closed socket. -/
theorem writesAll_closed (memory : ℕ → UInt8) (buf : ℕ) (some_ : 0 < size)
    (results : List WriteResult) : WritesAll memory buf size (writex false buf size results) := by
  have more : (size : ℤ) > 0 := by omega
  have refused : writex false buf size results = ⟨some (-1), []⟩ := by
    rw [writex, writexLoop, if_pos more]
    rfl
  rw [refused]
  constructor
  · intro whole
    have wrong := Option.some.inj whole
    omega
  · intro call made
    cases made
  · intro call made
    cases made

/-- Where the first answer that counts is not short, one pass is enough. -/
theorem writesAll_once (memory : ℕ → UInt8) (buf : ℕ) (some_ : 0 < size)
    {results : List WriteResult} (whole : ¬ FirstShort size results) :
    WritesAll memory buf size (writex true buf size results) := by
  have more : (size : ℤ) > 0 := by omega
  have refusal : some (-1) = some (size : ℤ) → False := by
    intro same
    have wrong := Option.some.inj same
    omega
  rw [writex, writexLoop_pass size buf more, writeLoop_eq]
  unfold FirstShort at whole
  cases first : results.dropWhile (· = .interrupted) with
  | nil => exact .of_last ⟨rfl, rfl⟩ (fun value => by cases value) (fun failure => by cases failure)
  | cons result rest =>
    rw [first] at whole
    cases result with
    | interrupted =>
      exact .of_last ⟨rfl, rfl⟩ (fun value => by cases value) (fun failure => by cases failure)
    | failed => exact .of_last ⟨rfl, rfl⟩ (fun value => (refusal value).elim) (fun _ => rfl)
    | upTo limit positive =>
      have enough : size ≤ limit := by
        by_contra short
        exact whole ⟨limit, positive, rfl, Nat.lt_of_not_le short⟩
      have count : min limit size = size := Nat.min_eq_right enough
      have done : ¬ (size : ℤ) - ((min limit size : ℕ) : ℤ) > 0 := by omega
      dsimp only
      rw [writexLoop_done true size _ done, List.append_nil]
      exact .of_last ⟨rfl, rfl⟩ (fun _ => count) (fun failure => by cases failure)

/-- Behind a short count the next call reaches past the end of the buffer. -/
theorem not_writesAll_short (memory : ℕ → UInt8) (buf : ℕ) {results : List WriteResult}
    (short : FirstShort size results) :
    ¬ WritesAll memory buf size (writex true buf size results) := by
  obtain ⟨limit, positive, first, less⟩ := short
  obtain ⟨rest, here⟩ : ∃ rest, results.dropWhile (· = .interrupted) =
      .upTo limit positive :: rest := by
    obtain ⟨rest, split⟩ := List.head?_eq_some_iff.mp first
    exact ⟨rest, split⟩
  have count : min limit size = limit := Nat.min_eq_left less.le
  have more : (size : ℤ) > 0 := by omega
  have onward : (size : ℤ) - (limit : ℤ) > 0 := by omega
  intro all
  have inside := all.inside
  rw [writex, writexLoop_pass size buf more, writeLoop_eq, here] at inside
  dsimp only at inside
  rw [count, writexLoop_pass size (buf + limit) onward] at inside
  obtain ⟨call, made, address, length⟩ := writeLoop_call (buf + limit) size rest
  have reached : call ∈ (match writeLoop (buf + limit) size rest with
      | (.error, calls, _) => (⟨some (-1), calls⟩ : Written)
      | (.blocked, calls, _) => ⟨none, calls⟩
      | (.count numWrite, calls, left) =>
        let later := writexLoop true size (buf + limit + numWrite) (size - limit - numWrite) left
        { later with calls := calls ++ later.calls }).calls := by
    cases pass : writeLoop (buf + limit) size rest with
    | mk answer made' =>
      rw [pass] at made
      cases answer with
      | error | blocked => exact made
      | count taken => exact List.mem_append_left _ made
  have within := inside call (List.mem_append_right _ reached)
  rw [address, length] at within
  omega

/-- Whatever `write` answers, `writex` hands the buffer over once and stays in it, or answers an
error, exactly when the socket is closed or the first answer that is no interruption is not a count
short of the buffer. -/
theorem writex_writesAll_iff (memory : ℕ → UInt8) (isOpen : Bool) (buf size : ℕ)
    (results : List WriteResult) :
    WritesAll memory buf size (writex isOpen buf size results) ↔
      isOpen = false ∨ ¬ FirstShort size results := by
  constructor
  · intro all
    cases isOpen with
    | false => exact Or.inl rfl
    | true => exact Or.inr fun short => not_writesAll_short memory buf short all
  · intro careful
    rcases Nat.eq_zero_or_pos size with rfl | some_
    · exact writesAll_empty memory isOpen buf results
    · cases isOpen with
      | false => exact writesAll_closed memory buf some_ results
      | true => exact writesAll_once memory buf some_ (careful.resolve_left (by decide))

/-- The socket takes one byte of two: the next call passes the byte behind the buffer. -/
theorem writex_overruns :
    ¬ WritesAll (fun address => UInt8.ofNat address) 100 2
      (writex true 100 2 [.upTo 1 (by decide), .upTo 2 (by decide)]) :=
  not_writesAll_short _ 100 ⟨1, by decide, rfl, by decide⟩

/-! ## Outcomes of whole writes -/

/-- The results of `write` behind an outcome: all of the buffer at once, or some of it and then an
error. -/
def outcomeResults (size : ℕ) : Option ℕ → List WriteResult
  | none => [.upTo (size + 1) (Nat.succ_pos size)]
  | some 0 => [.failed]
  | some (part + 1) => [.upTo (part + 1) (Nat.succ_pos part), .failed]

/-- The start of a buffer. -/
theorem region_take (memory : ℕ → UInt8) (buf : ℕ) {part size : ℕ} (less : part ≤ size) :
    region memory buf part = (region memory buf size).take part := by
  rw [region, region, ← List.map_take, List.take_range, Nat.min_eq_left less]

/-- A write with an outcome is the loop on the results behind it. -/
theorem CommClient.writex_eq {c : CommClient} (open_ : c.isOpen = true) {data : Bytes}
    (some_ : data ≠ []) (stored : region memory buf data.length = data) {outcome : Option ℕ}
    {later : List (Option ℕ)} (coming : c.socket.outcomes = outcome :: later)
    (part : ∀ taken, outcome = some taken → taken < data.length) :
    let w := Proxy.writex true buf data.length (outcomeResults data.length outcome)
    w.value = some ((c.writex data).1.elim (-1) Int.ofNat) ∧
      (c.writex data).2.socket.sent = c.socket.sent ++ handed memory w.calls := by
  have size := List.length_pos_iff.mpr some_
  have more : (data.length : ℤ) > 0 := by omega
  have opened : ¬ c.isOpen = false := by rw [open_]; decide
  dsimp only
  rw [CommClient.writex, if_neg some_, if_neg opened, coming, Proxy.writex,
    writexLoop_pass data.length buf more]
  match outcome with
  | none =>
    have count : min (data.length + 1) data.length = data.length := by omega
    have done : ¬ (data.length : ℤ) - ((min (data.length + 1) data.length : ℕ) : ℤ) > 0 := by omega
    simp only [outcomeResults, writeLoop]
    rw [writexLoop_done true data.length _ done]
    refine ⟨rfl, ?_⟩
    simp only [handed, WriteCall.taken, List.append_nil, List.flatMap_singleton, count, stored]
  | some 0 =>
    exact ⟨rfl, congrArg (c.socket.sent ++ ·) List.take_zero⟩
  | some (taken + 1) =>
    have less := part (taken + 1) rfl
    have count : min (taken + 1) data.length = taken + 1 := Nat.min_eq_left less.le
    have onward : (data.length : ℤ) - ((min (taken + 1) data.length : ℕ) : ℤ) > 0 := by omega
    simp only [outcomeResults, writeLoop]
    rw [writexLoop_pass data.length _ onward]
    refine ⟨rfl, ?_⟩
    have start := region_take memory buf less.le
    rw [stored] at start
    simp only [writeLoop, handed, WriteCall.taken, List.flatMap_append, List.flatMap_singleton,
      count, start]
    exact congrArg _ (List.append_nil _).symm

end TinyTools.Proxy
