import TinyTools.Lib.Descriptors
import TinyTools.Shell.Stages

/-!
# The descriptors of a pipeline

What the descriptors of the processes refer to whenever one of them calls `execvp`. A redirection
opens its file in the process that scans the line, and stays there for the segments behind. For a
`|` a pipe is made; the process that is forked writes into it, and only when it has ended does the
scan go on, with the other end as its input. So a command always comes to the end of its input; but
nobody reads its output while it runs.
-/

namespace TinyTools.Shell

open TinyTools.Lib

/-- What a descriptor refers to. -/
inductive OpenFile
  /-- What the shell was started with. -/
  | given (fd : ℕ)
  /-- A file that `redirect` has opened. -/
  | opened (flag : ℕ) (file : Word)
  /-- The end of a pipe that is read. -/
  | readEnd (pipe : ℕ)
  /-- The end of a pipe that is written. -/
  | writeEnd (pipe : ℕ)
  deriving DecidableEq

/-- The stream that `redirect` replaces. -/
def streamOf (flag : ℕ) : ℕ := if flag = 0 then 0 else if flag = 1 then 1 else 2

/-- `redirect`. Where the file is not opened, `dup2` and `close` fail, and nothing changes. -/
def redirect (opens : ℕ → Word → Bool) (t : Descriptors OpenFile) (flag : ℕ) (file : Word) :
    Descriptors OpenFile :=
  if opens flag file then
    let (fd, t) := t.allocate (.opened flag file)
    (t.dup2 fd (streamOf flag)).close fd
  else t

/-- The process that is forked for a segment: its output goes into the pipe. -/
def pipeChild (t : Descriptors OpenFile) (pipefd : ℕ × ℕ) : Descriptors OpenFile :=
  ((t.close 1).dup2 pipefd.2 1).close pipefd.1

/-- The process that goes on behind the segment: its input comes out of the pipe. -/
def pipeParent (t : Descriptors OpenFile) (pipefd : ℕ × ℕ) : Descriptors OpenFile :=
  ((t.close 0).dup2 pipefd.1 0).close pipefd.2

/-- A call of `execvp`. -/
structure Exec where
  /-- What it is called with. -/
  attempt : Attempt
  /-- The descriptors of the process that calls. -/
  own : Descriptors OpenFile
  /-- Those of the processes that wait for it, and for one another. -/
  waiting : List (Descriptors OpenFile)

/-- The calls of `execvp` by a process and those that it forks, in order, and the number of pipes
made by then. -/
def Process.execCalls (opens : ℕ → Word → Bool) :
    Process → List (Descriptors OpenFile) → Descriptors OpenFile → ℕ → List Exec × ℕ
  | redirect flag file next, waiting, t, pipes =>
    next.execCalls opens waiting (Shell.redirect opens t flag file) pipes
  | fork _ child next, waiting, t, pipes =>
    let (pipefd, t) := t.pipe (.readEnd pipes) (.writeEnd pipes)
    let (forked, made) := child.execCalls opens (t :: waiting) (pipeChild t pipefd) (pipes + 1)
    let (later, made) := next.execCalls opens waiting (pipeParent t pipefd) made
    (forked ++ later, made)
  | started attempt, waiting, t, pipes => ([⟨attempt, t, waiting⟩], pipes)
  | returned attempt next, waiting, t, pipes =>
    let (later, made) := next.execCalls opens waiting t pipes
    (⟨attempt, t, waiting⟩ :: later, made)
  | free _ next, waiting, t, pipes => next.execCalls opens waiting t pipes
  | exit, _, _, pipes => ([], pipes)
  | fault, _, _, pipes => ([], pipes)

/-- The calls of `execvp` that a line leads to. The shell itself waits for its child. -/
def Process.childExecs (opens : ℕ → Word → Bool) (shell : Descriptors OpenFile) (p : Process) :
    List Exec :=
  (p.execCalls opens [shell] shell 0).1

/-- The ends of pipes at a call of `execvp`. -/
structure Exec.Plumbed (e : Exec) : Prop where
  /-- A pipe that is read from has no end left that is written: reading comes to an end. -/
  ends : ∀ pipe, e.own.Holds (.readEnd pipe) →
    ∀ t ∈ e.own :: e.waiting, ¬ t.Holds (.writeEnd pipe)
  /-- A pipe that is written to has an end that is read, but only processes that wait have it. -/
  unread : ∀ pipe, e.own.Holds (.writeEnd pipe) →
    ¬ e.own.Holds (.readEnd pipe) ∧ ∃ t ∈ e.waiting, t.Holds (.readEnd pipe)

/-- The descriptors of a shell: the three streams, and whatever else it was started with. -/
structure Started (t : Descriptors OpenFile) : Prop where
  /-- The streams are open. -/
  streams : t.FullBelow 3
  /-- Nothing was opened since. -/
  given : ∀ fd file, t.slot fd = some file → file = .given fd

/-- The descriptors of a shell that was started with the three streams. -/
def streams : Descriptors OpenFile where
  slot fd := if fd < 3 then some (.given fd) else none
  finite := ⟨3, fun _ far => if_neg (not_lt.mpr far)⟩

/-! ## One step of a table -/

section

variable {t : Descriptors OpenFile} {opens : ℕ → Word → Bool}

/-- The streams are the first three descriptors. -/
theorem streamOf_lt (flag : ℕ) : streamOf flag < 3 := by
  unfold streamOf
  split_ifs <;> decide

/-- A redirection replaces a stream when its file is opened, and nothing else. -/
theorem redirect_slot (full : t.FullBelow 3) (flag : ℕ) (file : Word) (fd : ℕ) :
    (redirect opens t flag file).slot fd =
      if streamOf flag = fd ∧ opens flag file then some (.opened flag file) else t.slot fd := by
  unfold redirect
  by_cases works : opens flag file
  · have new : 3 ≤ t.lowest := full.le_lowest
    have stream := streamOf_lt flag
    have opened : (t.put t.lowest (some (.opened flag file))).slot t.lowest =
        some (.opened flag file) := by rw [Descriptors.slot_put, if_pos rfl]
    rw [if_pos works]
    change (((t.put t.lowest (some (.opened flag file))).dup2 t.lowest (streamOf flag)).close
      t.lowest).slot fd = _
    rw [Descriptors.dup2_of_slot opened, Descriptors.slot_close, Descriptors.slot_put,
      Descriptors.slot_put]
    by_cases closed : fd = t.lowest
    · have other : ¬ (streamOf flag = fd ∧ opens flag file) := by omega
      rw [if_pos closed, if_neg other, closed, t.slot_lowest]
    · rw [if_neg closed, if_neg closed]
      simp only [works, and_true, eq_comm]
  · have fails : ¬ (streamOf flag = fd ∧ opens flag file) := fun both => works both.2
    rw [if_neg works, if_neg fails]

/-- The streams stay open. -/
theorem redirect_full (full : t.FullBelow 3) (flag : ℕ) (file : Word) :
    (redirect opens t flag file).FullBelow 3 := by
  intro fd below
  rw [redirect_slot full]
  split_ifs
  · exact Option.some_ne_none _
  · exact full fd below

/-- A redirection opens its file only. -/
theorem redirect_holds (full : t.FullBelow 3) {flag : ℕ} {file : Word} {other : OpenFile}
    (holds : (redirect opens t flag file).Holds other) :
    other = .opened flag file ∨ t.Holds other := by
  obtain ⟨fd, refers⟩ := holds
  rw [redirect_slot full] at refers
  split_ifs at refers
  · exact Or.inl (Option.some.inj refers).symm
  · exact Or.inr ⟨fd, refers⟩

/-- A new pipe, and the descriptors of the two processes behind it. -/
structure Piped (t : Descriptors OpenFile) (pipes rd wr : ℕ) (made : Descriptors OpenFile) :
    Prop where
  /-- The number of the end that is read. -/
  reads : 3 ≤ rd
  /-- The number of the end that is written. -/
  writes : rd < wr
  /-- Both ends are open at first. -/
  both : ∀ fd, made.slot fd = if fd = rd then some (.readEnd pipes)
    else if fd = wr then some (.writeEnd pipes) else t.slot fd
  /-- The process that is forked keeps the end that is written, twice. -/
  child : ∀ fd, (pipeChild made (rd, wr)).slot fd =
    if fd = 1 ∨ fd = wr then some (.writeEnd pipes) else t.slot fd
  /-- The process that goes on keeps the end that is read, twice. -/
  parent : ∀ fd, (pipeParent made (rd, wr)).slot fd =
    if fd = 0 ∨ fd = rd then some (.readEnd pipes) else t.slot fd

/-- The two ends get free numbers, and nothing else changes. -/
theorem pipe_piped (full : t.FullBelow 3) (pipes : ℕ) {rd wr : ℕ} {made : Descriptors OpenFile}
    (piped : t.pipe (.readEnd pipes) (.writeEnd pipes) = ((rd, wr), made)) :
    Piped t pipes rd wr made := by
  obtain ⟨first, later, free, both⟩ := Descriptors.pipe_spec t _ _ piped
  have new : 3 ≤ rd := first ▸ full.le_lowest
  have unused : t.slot rd = none := first ▸ t.slot_lowest
  refine ⟨new, later, both, fun fd => ?_, fun fd => ?_⟩
  · have source : (made.close 1).slot wr = some (.writeEnd pipes) := by
      rw [Descriptors.slot_close, if_neg (by omega), both, if_neg later.ne', if_pos rfl]
    change (((made.close 1).dup2 wr 1).close rd).slot fd = _
    rw [Descriptors.dup2_of_slot source, Descriptors.slot_close, Descriptors.slot_put,
      Descriptors.slot_close, both]
    by_cases read : fd = rd
    · have other : ¬ (fd = 1 ∨ fd = wr) := by omega
      rw [if_pos read, if_neg other, read, unused]
    · by_cases one : fd = 1
      · rw [if_neg read, if_pos one, if_pos (Or.inl one)]
      · rw [if_neg read, if_neg one, if_neg one, if_neg read]
        simp only [one, false_or]
  · have source : (made.close 0).slot rd = some (.readEnd pipes) := by
      rw [Descriptors.slot_close, if_neg (by omega), both, if_pos rfl]
    change (((made.close 0).dup2 rd 0).close wr).slot fd = _
    rw [Descriptors.dup2_of_slot source, Descriptors.slot_close, Descriptors.slot_put,
      Descriptors.slot_close, both]
    by_cases write : fd = wr
    · have other : ¬ (fd = 0 ∨ fd = rd) := by omega
      rw [if_pos write, if_neg other, write, free]
    · by_cases zero : fd = 0
      · rw [if_neg write, if_pos zero, if_pos (Or.inl zero)]
      · rw [if_neg write, if_neg zero, if_neg zero, if_neg write]
        simp only [zero, false_or]

end

/-! ## The ends of the pipes -/

/-- What a process holds of the pipes made so far, and what those hold that wait for it. -/
structure Tidy (waiting : List (Descriptors OpenFile)) (t : Descriptors OpenFile) (pipes : ℕ) :
    Prop where
  /-- The three streams are open. -/
  streams : t.FullBelow 3
  /-- Nobody writes to a pipe that the process reads. -/
  ends : ∀ pipe, t.Holds (.readEnd pipe) → ∀ other ∈ t :: waiting, ¬ other.Holds (.writeEnd pipe)
  /-- Some process that waits can read what the process writes. -/
  unread : ∀ pipe, t.Holds (.writeEnd pipe) → ∃ other ∈ waiting, other.Holds (.readEnd pipe)
  /-- There are no ends of other pipes. -/
  known : ∀ other ∈ t :: waiting, ∀ pipe,
    other.Holds (.readEnd pipe) ∨ other.Holds (.writeEnd pipe) → pipe < pipes

section

variable {waiting : List (Descriptors OpenFile)} {t t' made : Descriptors OpenFile}
  {pipes rd wr : ℕ}

/-- Pipes that are made elsewhere make no difference. -/
theorem Tidy.mono (tidy : Tidy waiting t pipes) {more : ℕ} (le : pipes ≤ more) :
    Tidy waiting t more where
  streams := tidy.streams
  ends := tidy.ends
  unread := tidy.unread
  known other among pipe holds := (tidy.known other among pipe holds).trans_le le

/-- A redirection keeps the ends of the pipes, or gives one up. -/
theorem Tidy.redirect (tidy : Tidy waiting t pipes) (opens : ℕ → Word → Bool) (flag : ℕ)
    (file : Word) : Tidy waiting (Shell.redirect opens t flag file) pipes := by
  have reads {pipe : ℕ} (holds : (Shell.redirect opens t flag file).Holds (.readEnd pipe)) :
      t.Holds (.readEnd pipe) := (redirect_holds tidy.streams holds).resolve_left nofun
  have writes {pipe : ℕ} (holds : (Shell.redirect opens t flag file).Holds (.writeEnd pipe)) :
      t.Holds (.writeEnd pipe) := (redirect_holds tidy.streams holds).resolve_left nofun
  constructor
  · exact redirect_full tidy.streams flag file
  · intro pipe read other among write
    cases among with
    | head => exact tidy.ends pipe (reads read) t List.mem_cons_self (writes write)
    | tail _ waits => exact tidy.ends pipe (reads read) other (.tail _ waits) write
  · intro pipe write
    exact tidy.unread pipe (writes write)
  · intro other among pipe holds
    cases among with
    | head => exact tidy.known t List.mem_cons_self pipe (holds.imp reads writes)
    | tail _ waits => exact tidy.known other (.tail _ waits) pipe holds

/-- Before a pipe is made, nobody has an end of it. -/
theorem Tidy.fresh (tidy : Tidy waiting t pipes) {other : Descriptors OpenFile}
    (among : other ∈ t :: waiting) :
    ¬ other.Holds (.readEnd pipes) ∧ ¬ other.Holds (.writeEnd pipes) := by
  constructor
  · intro holds
    exact lt_irrefl _ (tidy.known other among pipes (Or.inl holds))
  · intro holds
    exact lt_irrefl _ (tidy.known other among pipes (Or.inr holds))

/-- The ends of the new pipe are added to those that there were. -/
theorem Piped.made_holds (piped : Piped t pipes rd wr made) {file : OpenFile}
    (holds : made.Holds file) :
    file = .readEnd pipes ∨ file = .writeEnd pipes ∨ t.Holds file := by
  obtain ⟨fd, refers⟩ := holds
  rw [piped.both] at refers
  split_ifs at refers
  · exact Or.inl (Option.some.inj refers).symm
  · exact Or.inr (Or.inl (Option.some.inj refers).symm)
  · exact Or.inr (Or.inr ⟨fd, refers⟩)

/-- Of a new pipe the child holds at most the end to write to. -/
theorem Piped.child_holds (piped : Piped t pipes rd wr made) {file : OpenFile}
    (holds : (pipeChild made (rd, wr)).Holds file) : file = .writeEnd pipes ∨ t.Holds file := by
  obtain ⟨fd, refers⟩ := holds
  rw [piped.child] at refers
  split_ifs at refers
  · exact Or.inl (Option.some.inj refers).symm
  · exact Or.inr ⟨fd, refers⟩

/-- Of a new pipe the parent holds at most the end to read from. -/
theorem Piped.parent_holds (piped : Piped t pipes rd wr made) {file : OpenFile}
    (holds : (pipeParent made (rd, wr)).Holds file) : file = .readEnd pipes ∨ t.Holds file := by
  obtain ⟨fd, refers⟩ := holds
  rw [piped.parent] at refers
  split_ifs at refers
  · exact Or.inl (Option.some.inj refers).symm
  · exact Or.inr ⟨fd, refers⟩

/-- The process that is forked writes to the new pipe, and can be read by the one that waits. -/
theorem Tidy.child (tidy : Tidy waiting t pipes) (piped : Piped t pipes rd wr made) :
    Tidy (made :: waiting) (pipeChild made (rd, wr)) (pipes + 1) := by
  have fresh := tidy.fresh List.mem_cons_self
  constructor
  · intro fd below
    rw [piped.child]
    split_ifs
    · exact Option.some_ne_none _
    · exact tidy.streams fd below
  · intro pipe read other among write
    have before : t.Holds (.readEnd pipe) := (piped.child_holds read).resolve_left nofun
    have older : pipe ≠ pipes := fun same => fresh.1 (same ▸ before)
    have absent := tidy.ends pipe before
    rcases List.mem_cons.mp among with rfl | among
    · rcases piped.child_holds write with same | held
      · exact older (OpenFile.writeEnd.inj same)
      · exact absent t List.mem_cons_self held
    · rcases List.mem_cons.mp among with rfl | waits
      · rcases piped.made_holds write with same | same | held
        · cases same
        · exact older (OpenFile.writeEnd.inj same)
        · exact absent t List.mem_cons_self held
      · exact absent other (.tail _ waits) write
  · intro pipe write
    rcases piped.child_holds write with same | held
    · refine ⟨made, List.mem_cons_self, rd, ?_⟩
      rw [piped.both, if_pos rfl, OpenFile.writeEnd.inj same]
    · obtain ⟨other, waits, reads⟩ := tidy.unread pipe held
      exact ⟨other, .tail _ waits, reads⟩
  · intro other among pipe holds
    have old {any : Descriptors OpenFile} (here : any ∈ t :: waiting)
        (has : any.Holds (.readEnd pipe) ∨ any.Holds (.writeEnd pipe)) : pipe < pipes + 1 :=
      (tidy.known any here pipe has).trans (Nat.lt_succ_self pipes)
    rcases List.mem_cons.mp among with rfl | among
    · rcases holds with read | write
      · exact old List.mem_cons_self (Or.inl ((piped.child_holds read).resolve_left nofun))
      · rcases piped.child_holds write with same | held
        · rw [OpenFile.writeEnd.inj same]
          exact Nat.lt_succ_self pipes
        · exact old List.mem_cons_self (Or.inr held)
    · rcases List.mem_cons.mp among with rfl | waits
      · rcases holds with read | write
        · rcases piped.made_holds read with same | same | held
          · rw [OpenFile.readEnd.inj same]
            exact Nat.lt_succ_self pipes
          · cases same
          · exact old List.mem_cons_self (Or.inl held)
        · rcases piped.made_holds write with same | same | held
          · cases same
          · rw [OpenFile.writeEnd.inj same]
            exact Nat.lt_succ_self pipes
          · exact old List.mem_cons_self (Or.inr held)
      · exact old (.tail _ waits) holds

/-- The process that goes on reads the new pipe, which nobody writes to any more. -/
theorem Tidy.parent (tidy : Tidy waiting t pipes) (piped : Piped t pipes rd wr made) :
    Tidy waiting (pipeParent made (rd, wr)) (pipes + 1) := by
  have writes {pipe : ℕ} (holds : (pipeParent made (rd, wr)).Holds (.writeEnd pipe)) :
      t.Holds (.writeEnd pipe) := (piped.parent_holds holds).resolve_left nofun
  constructor
  · intro fd below
    rw [piped.parent]
    split_ifs
    · exact Option.some_ne_none _
    · exact tidy.streams fd below
  · intro pipe read other among write
    have held : ∃ any ∈ t :: waiting, any.Holds (.writeEnd pipe) := by
      cases among with
      | head => exact ⟨t, List.mem_cons_self, writes write⟩
      | tail _ waits => exact ⟨other, .tail _ waits, write⟩
    obtain ⟨any, here, has⟩ := held
    rcases piped.parent_holds read with same | before
    · rw [OpenFile.readEnd.inj same] at has
      exact (tidy.fresh here).2 has
    · exact tidy.ends pipe before any here has
  · intro pipe write
    exact tidy.unread pipe (writes write)
  · intro other among pipe holds
    cases among with
    | head =>
      rcases holds with read | write
      · rcases piped.parent_holds read with same | held
        · rw [OpenFile.readEnd.inj same]
          exact Nat.lt_succ_self pipes
        · have bound := tidy.known t List.mem_cons_self pipe (Or.inl held)
          omega
      · have bound := tidy.known t List.mem_cons_self pipe (Or.inr (writes write))
        omega
    | tail _ waits =>
      have bound := tidy.known other (.tail _ waits) pipe holds
      omega

/-- The ends of the pipes at a call of `execvp`. -/
theorem Tidy.plumbed (tidy : Tidy waiting t pipes) (attempt : Attempt) :
    Exec.Plumbed ⟨attempt, t, waiting⟩ where
  ends := tidy.ends
  unread pipe write := by
    refine ⟨fun read => ?_, tidy.unread pipe write⟩
    exact tidy.ends pipe read t List.mem_cons_self write

/-- Whatever a process does, and those that it forks, the ends stay in order. -/
theorem Tidy.execCalls (tidy : Tidy waiting t pipes) (opens : ℕ → Word → Bool) (p : Process) :
    (∀ e ∈ (p.execCalls opens waiting t pipes).1, e.Plumbed) ∧
      pipes ≤ (p.execCalls opens waiting t pipes).2 := by
  induction p generalizing waiting t pipes with
  | redirect flag file next ih => exact ih (tidy.redirect opens flag file)
  | fork stage child next ihChild ihNext =>
    obtain ⟨⟨⟨rd, wr⟩, made⟩, pipe⟩ :
      ∃ made, t.pipe (.readEnd pipes) (.writeEnd pipes) = made := ⟨_, rfl⟩
    have piped := pipe_piped tidy.streams pipes pipe
    obtain ⟨forked, more⟩ := ihChild (tidy.child piped)
    obtain ⟨later, most⟩ := ihNext ((tidy.parent piped).mono more)
    rw [Process.execCalls, pipe]
    constructor
    · intro e among
      rcases List.mem_append.mp among with inside | behind
      · exact forked e inside
      · exact later e behind
    · exact (Nat.le_succ pipes).trans (more.trans most)
  | started attempt =>
    constructor
    · intro e among
      rw [List.mem_singleton.mp among]
      exact tidy.plumbed attempt
    · exact le_rfl
  | returned attempt next ih =>
    obtain ⟨later, more⟩ := ih tidy
    constructor
    · intro e among
      rcases List.mem_cons.mp among with rfl | behind
      · exact tidy.plumbed attempt
      · exact later e behind
    · exact more
  | free args next ih => exact ih tidy
  | exit => exact ⟨nofun, le_rfl⟩
  | fault => exact ⟨nofun, le_rfl⟩

end

/-- A shell has no ends of pipes of its own. -/
theorem Started.tidy {shell : Descriptors OpenFile} (started : Started shell) :
    Tidy [shell] shell 0 := by
  have reads (pipe : ℕ) : ¬ shell.Holds (.readEnd pipe) := by
    rintro ⟨fd, refers⟩
    cases started.given fd _ refers
  have writes (pipe : ℕ) : ¬ shell.Holds (.writeEnd pipe) := by
    rintro ⟨fd, refers⟩
    cases started.given fd _ refers
  constructor
  · exact started.streams
  · intro pipe read
    exact absurd read (reads pipe)
  · intro pipe write
    exact absurd write (writes pipe)
  · intro other among pipe holds
    have same : other = shell := by simpa using among
    rw [same] at holds
    exact (holds.elim (reads pipe) (writes pipe)).elim

/-- Whatever the line, and whichever commands fail and files cannot be opened: at every call of
`execvp`, by the child of the shell, by the processes that it forks and by those that these fork,
no process has an end to write to a pipe that the caller reads; and of every pipe that the caller
writes to only processes that wait for it have an end to read. -/
theorem execCalls_plumbed (opens : ℕ → Word → Bool) {shell : Descriptors OpenFile}
    (started : Started shell) (p : Process) : ∀ e ∈ p.childExecs opens shell, e.Plumbed :=
  (started.tidy.execCalls opens p).1

/-- The three streams of a shell that was started with no more. -/
theorem streams_started : Started streams where
  streams fd below := by
    change (if fd < 3 then some (OpenFile.given fd) else none) ≠ none
    rw [if_pos below]
    exact Option.some_ne_none _
  given fd file refers := by
    change (if fd < 3 then some (OpenFile.given fd) else none) = some file at refers
    split_ifs at refers
    exact (Option.some.inj refers).symm

/-- The child of the line `a | b > c`, whose file cannot be opened. -/
theorem execCalls_plumbed_pair :
    ¬ ∃ e ∈ (child (fun _ => false) [bytes "a", pipeWord, bytes "b", bytes ">", bytes "c"]
      [bytes "a", pipeWord, bytes "b"]).childExecs (fun _ _ => false) streams, ¬ e.Plumbed := by
  rintro ⟨e, among, unplumbed⟩
  exact unplumbed (execCalls_plumbed _ streams_started _ e among)

end TinyTools.Shell
