import TinyTools.Shell.Child

/-!
# The loop that reads lines

`main` reads lines until `cin` is at its end or a line is an `exit`. A line that does not fit in the
buffer leaves `cin` failed: nothing more is extracted then, so its end is never reached, and the
line that is read is empty.

The characters come from the standard input a block at a time. A process of the shell whose
`execvp` has failed returns from `main` with a copy of what was not yet extracted. If it still has
the input of the shell, the library moves the offset back by as much, and of a file the shell has
the same offset. The programs that `execvp` starts are taken to leave the input alone, and every
`fork` to succeed.
-/

namespace TinyTools.Shell

open TinyTools.Lib

/-- What the shell runs on. -/
structure Setting where
  /-- The standard input has an offset that can be moved. -/
  seekable : Bool
  /-- The number of characters that are read at once. -/
  block : ℕ
  /-- There are some. -/
  room : 0 < block
  /-- The calls of `execvp` that fail, for every line that is read. -/
  fails : ℕ → Attempt → Bool
  /-- The files that `redirect` can open, by the number of the line and the flag. -/
  opens : ℕ → ℕ → Word → Bool

/-- `cin`, and the standard input below it. -/
structure Stream where
  /-- The characters of the standard input. -/
  content : Bytes
  /-- The number of them in front of its offset. -/
  offset : ℕ
  /-- The characters that have been read and are not extracted. -/
  buffered : Bytes
  /-- `eofbit`. -/
  eof : Bool
  /-- `failbit`. -/
  fail : Bool
  deriving DecidableEq

namespace Stream

/-- `cin` at the start. -/
def start (content : Bytes) : Stream := ⟨content, 0, [], false, false⟩

/-- The characters that can still be extracted. -/
def rest (s : Stream) : Bytes := s.buffered ++ s.content.drop s.offset

/-- A block is read when nothing is buffered. -/
def fill (block : ℕ) (s : Stream) : Stream :=
  if s.buffered = [] then
    let characters := (s.content.drop s.offset).take block
    { s with offset := s.offset + characters.length, buffered := characters }
  else s

/-- The loop of `getline`, with room for a number of characters in front of the NUL. -/
def getlineLoop (block : ℕ) : ℕ → Stream → Bytes × Stream
  | room, s =>
    match (s.fill block).buffered with
    | [] => ([], { s.fill block with eof := true })
    | byte :: later =>
      if byte = 10 then ([], { s.fill block with buffered := later })
      else
        match room with
        | 0 => ([], { s.fill block with fail := true })
        | room + 1 =>
          let (line, s') := getlineLoop block room { s.fill block with buffered := later }
          (byte :: line, s')

/-- `cin.getline(buffer, size)`: the characters that are stored in front of the NUL. When there are
none to extract, it fails as well. -/
def getline (block size : ℕ) (s : Stream) : Bytes × Stream :=
  if s.eof || s.fail then ([], { s with fail := true })
  else
    let (line, s') := getlineLoop block (size - 1) s
    (line, if s'.eof && line.isEmpty then { s' with fail := true } else s')

/-- The offset is moved back by what is buffered. It is never moved in front of the input. -/
def giveBack (s : Stream) : Stream :=
  if s.buffered.length ≤ s.offset then { s with offset := s.offset - s.buffered.length } else s

/-- The stream behind the next line. -/
def afterLine (block : ℕ) (s : Stream) : Stream := (s.getline block MAXLINE).2

end Stream

/-- The number of processes that return from `main` and have the input of the shell, of a process
that has it or not. -/
def Process.returning (opens : ℕ → Word → Bool) : Process → Bool → ℕ
  | redirect flag file next, shared =>
    next.returning opens (shared && !(flag == 0 && opens flag file))
  | fork _ child next, shared => child.returning opens shared + next.returning opens false
  | started _, _ => 0
  | returned _ next, shared => next.returning opens shared
  | free _ next, shared => next.returning opens shared
  | exit, shared => if shared then 1 else 0
  | fault, _ => 0

/-- The number of these processes for a line. -/
def Setting.returning (setting : Setting) (n : ℕ) (line : Bytes) : ℕ :=
  match forkedWords line with
  | none => 0
  | some argv =>
    (child (setting.fails n) (splitLine (cString line)) argv).returning (setting.opens n) true

/-- `main` ends at a line. -/
def exits (line : Bytes) : Bool := ((parsedWords line).bind List.head?) == some (bytes "exit")

/-- An iteration of the loop that does not end it. -/
def iteration (setting : Setting) (n : ℕ) (s : Stream) : Option Stream :=
  let (line, next) := s.getline setting.block MAXLINE
  if next.eof then none
  else if exits line then none
  else some (if setting.seekable then Stream.giveBack^[setting.returning n line] next else next)

/-- The loop ends after some iterations, and each one before the last extracts a character. -/
inductive Ends (setting : Setting) : ℕ → Stream → Prop
  /-- The last iteration. -/
  | last {n : ℕ} {s : Stream} (ends : iteration setting n s = none) : Ends setting n s
  /-- An iteration before it. -/
  | next {n : ℕ} {s s' : Stream} (goesOn : iteration setting n s = some s')
    (less : (s.getline setting.block MAXLINE).2.rest.length < s.rest.length)
    (later : Ends setting (n + 1) s') : Ends setting n s

/-- The lines of an input, the last one with nothing behind it. -/
def lines (input : Bytes) : List Bytes := input.splitOn 10

/-- For a line the offset of the input is not moved back: it cannot be, no process gives anything
back, or nothing is buffered behind the line. -/
def Setting.Quiet (setting : Setting) (n : ℕ) (line : Bytes) (behind : Stream) : Prop :=
  setting.seekable = false ∨ setting.returning n line = 0 ∨ behind.buffered = []

/-- So it is for the lines that are run, read from some iteration on. -/
def Setting.Undisturbed (setting : Setting) (n : ℕ) (s : Stream) (lines : List Bytes) : Prop :=
  ∀ front line next back, lines = front ++ line :: next :: back →
    (∀ earlier ∈ front ++ [line], earlier.length < MAXLINE ∧ exits earlier = false) →
    setting.Quiet (n + front.length) line ((Stream.afterLine setting.block)^[front.length + 1] s)

/-- The rest of an input is to be extracted, and nothing has failed. -/
structure Stream.Ready (s : Stream) (rest : Bytes) : Prop where
  /-- The characters. -/
  unread : s.rest = rest
  /-- `eofbit` is off. -/
  before : s.eof = false
  /-- `failbit` is off. -/
  sound : s.fail = false

/-! ## A line -/

namespace Stream

section

variable {block : ℕ} (s : Stream)

end

section

variable {block : ℕ}

end

end Stream

/-! ## An iteration -/

section

variable {setting : Setting} {n : ℕ} {s : Stream}

/-- What an iteration does with the line that it reads. -/
theorem iteration_of_getline {line : Bytes} {next : Stream}
    (read : s.getline setting.block MAXLINE = (line, next)) (goesOn : next.eof = false) :
    iteration setting n s =
      if exits line then none
      else some (if setting.seekable then Stream.giveBack^[setting.returning n line] next
        else next) := by
  unfold iteration
  simp only [read, goesOn, Bool.false_eq_true, if_false]

/-- With nothing buffered there is nothing to move back. -/
theorem Stream.giveBack_nil {s : Stream} (empty : s.buffered = []) : s.giveBack = s := by
  cases s
  cases empty
  exact if_pos (Nat.zero_le _)

/-- Behind a quiet line the stream is left alone. -/
theorem Setting.Quiet.calm {line : Bytes} {next : Stream} (quiet : setting.Quiet n line next) :
    (if setting.seekable then Stream.giveBack^[setting.returning n line] next else next) =
      next := by
  obtain fixed | none_ | empty := quiet
  · rw [fixed, if_neg Bool.false_ne_true]
  · rw [none_, Function.iterate_zero, id, ite_self]
  · rw [Function.iterate_fixed (Stream.giveBack_nil empty), ite_self]

end

/-! ## All lines -/

/-- When the offset is not moved back for lines, it is not for those behind the first one. -/
theorem Setting.Undisturbed.behind {setting : Setting} {n : ℕ} {s : Stream} {line : Bytes}
    {lines : List Bytes} (undisturbed : setting.Undisturbed n s (line :: lines))
    (short : line.length < MAXLINE) (stays : exits line = false) :
    setting.Undisturbed (n + 1) (s.afterLine setting.block) lines := by
  intro front other next back shape run
  have quiet := undisturbed (line :: front) other next back (congrArg _ shape)
    (List.forall_mem_cons.mpr ⟨⟨short, stays⟩, run⟩)
  rw [List.length_cons, Nat.add_comm front.length, ← Nat.add_assoc] at quiet
  rwa [Nat.add_comm 1, Function.iterate_succ_apply] at quiet

/-- The standard input is a file, and no program is found. -/
def noPrograms : Setting where
  seekable := true
  block := 4096
  room := by decide
  fails _ _ := true
  opens _ _ _ := true

/-- Three lines with a command, and the stream in front of each of them. -/
def threeCommands : List Stream :=
  let content := bytes "bad\nbad\nbad\n"
  [.start content, ⟨content, 4, content.drop 4, false, false⟩,
    ⟨content, 0, content.drop 8, false, false⟩]

/-- For the command one process returns from `main`. -/
theorem noPrograms_returning (n : ℕ) : noPrograms.returning n (bytes "bad") = 1 := by
  have parsed : forkedWords (bytes "bad") = some [bytes "bad"] := by decide
  have plain : operator (bytes "bad") = none := by decide
  have solid : bytes "bad" ≠ pipeWord := by decide
  have passed := scan_word (fun _ => true) [] [] (.line [bytes "bad"]) ⟨0, bytes "bad"⟩ plain solid
  have over_ := scan_end (fun _ => true) (.line [bytes "bad"]) [⟨0, bytes "bad"⟩] (Nat.le_refl 1)
  have whole : child (fun _ => true) (splitLine (cString (bytes "bad"))) [bytes "bad"] = _ :=
    passed.trans over_
  unfold Setting.returning
  rw [parsed]
  exact congrArg (fun p => p.returning (fun _ _ => true) true) whole

/-- Behind the command the offset is moved back once. -/
theorem noPrograms_iteration (n : ℕ) {s next : Stream}
    (read : s.getline noPrograms.block MAXLINE = (bytes "bad", next)) (goesOn : next.eof = false) :
    iteration noPrograms n s = some next.giveBack := by
  have noExit : ¬ exits (bytes "bad") = true := by decide
  rw [iteration_of_getline read goesOn, if_neg noExit, noPrograms_returning]
  rfl

/-- Behind the third line the offset is in front of the first one again. -/
theorem noPrograms_turns (n : ℕ) {s : Stream} (inside : s ∈ threeCommands) :
    ∃ s' ∈ threeCommands, iteration noPrograms n s = some s' := by
  have reads : ∀ s ∈ threeCommands, (s.getline noPrograms.block MAXLINE).1 = bytes "bad" ∧
      (s.getline noPrograms.block MAXLINE).2.eof = false ∧
      (s.getline noPrograms.block MAXLINE).2.giveBack ∈ threeCommands := by decide +kernel
  obtain ⟨command, goesOn, turns⟩ := reads s inside
  exact ⟨_, turns, noPrograms_iteration n (Prod.ext command rfl) goesOn⟩

/-- The loop reads the three lines again and again. -/
theorem not_ends_again : ¬ Ends noPrograms 0 (.start (bytes "bad\nbad\nbad\n")) := by
  have never : ∀ n s, Ends noPrograms n s → s ∉ threeCommands := by
    intro n s ends
    induction ends with
    | last ends =>
      intro inside
      obtain ⟨s', _, step⟩ := noPrograms_turns _ inside
      rw [step] at ends
      cases ends
    | next goesOn _ _ ih =>
      intro inside
      obtain ⟨s', inside', step⟩ := noPrograms_turns _ inside
      rw [step] at goesOn
      exact ih (Option.some.inj goesOn ▸ inside')
  intro ends
  exact never _ _ ends List.mem_cons_self

end TinyTools.Shell
