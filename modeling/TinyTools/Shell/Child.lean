import TinyTools.Shell.Line

/-!
# The child of the shell

The process that `main` forks for a line scans `args`: it redirects its streams for the operators
and erases them with their files, forks a process for every segment in front of a `|` and erases
the segment once that process has ended, and at last executes `cmd`. A forked process executes its
segment; when that fails, it is still inside the loop, with all of `args`, and goes on scanning.
-/

namespace TinyTools.Shell

open TinyTools.Lib

/-- A word of `args`, and the number of the segment in which it stands on the line. Only statements
about the processes use the number. -/
structure Arg where
  /-- The segment. -/
  stage : ℕ
  /-- The word. -/
  text : Word
  deriving DecidableEq

/-- The words of a line with the numbers of their segments. -/
def number : ℕ → List Word → List Arg
  | _, [] => []
  | stage, word :: rest =>
    ⟨stage, word⟩ :: number (if word = pipeWord then stage + 1 else stage) rest

/-- The segment of the first of some words. -/
def stageOf : List Arg → ℕ
  | [] => 0
  | arg :: _ => arg.stage

/-- What `execvp` is called with. -/
inductive Attempt
  /-- Words of `args`. -/
  | words (args : List Arg)
  /-- The line as `main` parsed it. -/
  | line (argv : List Word)

/-- The argument vector in front of its null pointer. -/
def Attempt.argv : Attempt → List Word
  | words args => args.map Arg.text
  | line argv => argv

/-- The segment whose command is executed. -/
def Attempt.stage : Attempt → ℕ
  | words args => stageOf args
  | line _ => 0

/-- What a process does, and what the processes do that it forks. -/
inductive Process
  /-- `redirect` is called. -/
  | redirect (flag : ℕ) (file : Word) (next : Process)
  /-- A process is forked for a segment, and the scan goes on when it has ended. -/
  | fork (stage : ℕ) (child next : Process)
  /-- `execvp` succeeds. -/
  | started (attempt : Attempt)
  /-- `execvp` fails, and the process goes on. -/
  | returned (attempt : Attempt) (next : Process)
  /-- The words left by the loop are freed. -/
  | free (args : List Arg) (next : Process)
  /-- The process ends. -/
  | exit
  /-- A word behind the last one is read, or `execvp` is called with a null pointer. -/
  | fault

/-- A call of `execvp`, and what the process does when it fails. -/
def execvp (fails : Attempt → Bool) (attempt : Attempt) (next : Process) : Process :=
  if attempt.argv = [] then .fault
  else if fails attempt then .returned attempt next
  else .started attempt

/-- The loop over `args` from an index on, and what follows it. Behind an erased operator or segment
the loop goes on at the index one. -/
def scan (fails : Attempt → Bool) (args : List Arg) (j : ℕ) (cmd : Attempt) : Process :=
  if inside : j < args.length then
    match operator args[j].text with
    | some op =>
      if behind : j + 1 < args.length then
        .redirect op.flag args[j + 1].text (scan fails (args.take j ++ args.drop (j + 2)) 1 cmd)
      else .fault
    | none =>
      if args[j].text = pipeWord then
        .fork (stageOf (args.take j))
          (execvp fails (.words (args.take j)) (scan fails args (j + 1) cmd))
          (scan fails (args.drop (j + 1)) 1 (.words (args.drop (j + 1))))
      else scan fails args (j + 1) cmd
  else .free args (execvp fails cmd .exit)
termination_by (args.length, args.length - j)
decreasing_by
  · left
    simp only [List.length_append, List.length_take, List.length_drop]
    omega
  · right
    omega
  · left
    simp only [List.length_drop]
    omega
  · right
    omega

/-- The child process for the words of a line and its parsed form. -/
def child (fails : Attempt → Bool) (args argv : List Word) : Process :=
  scan fails (number 0 args) 0 (.line argv)

/-- The commands that `main` carries out itself. -/
def builtins : List Word :=
  [bytes "exit", bytes "cd", bytes "pushd", bytes "popd", bytes "dirstack"]

/-- The child that `main` forks for a line, if it forks one. -/
def forkChild (fails : Attempt → Bool) (line : Bytes) : Option Process := do
  let args := splitLine (cString line)
  let cmd ← parseLine (← newBuffer args)
  let name ← cmd.argv.head?
  if name ∈ builtins then none else some (child fails args cmd.argv)

/-- The words that `main` parses for a line, if it forks a child for them. -/
def forkedWords (line : Bytes) : Option (List Word) := do
  let argv ← parsedWords line
  let name ← argv.head?
  if builtins.contains name then none else some argv

/-- The numbered words are the words. -/
theorem number_text (stage : ℕ) (words : List Word) :
    (number stage words).map Arg.text = words := by
  induction words generalizing stage with
  | nil => rfl
  | cons word words ih => exact congrArg (word :: ·) (ih _)

/-- What holds of all words holds of those that are left when an operator and its file are
erased. -/
theorem forall_erased {holds : Arg → Prop} {args : List Arg} (all : ∀ arg ∈ args, holds arg)
    (j : ℕ) : ∀ arg ∈ args.take j ++ args.drop (j + 2), holds arg := by
  intro arg inside
  cases List.mem_append.mp inside with
  | inl before => exact all arg (List.mem_of_mem_take before)
  | inr after => exact all arg (List.mem_of_mem_drop after)

/-! ## One step of the loop -/

section

variable (fails : Attempt → Bool) (front behind : List Arg) (cmd : Attempt)

/-- Behind the last word the loop ends. -/
theorem scan_end (args : List Arg) {j : ℕ} (over_ : args.length ≤ j) :
    scan fails args j cmd = .free args (execvp fails cmd .exit) := by
  rw [scan, dif_neg (not_lt.mpr over_)]

/-- The loop passes over a word that is neither an operator nor stands between segments. -/
theorem scan_word (word : Arg) (plain : operator word.text = none)
    (solid : word.text ≠ pipeWord) :
    scan fails (front ++ word :: behind) front.length cmd =
      scan fails (front ++ word :: behind) (front.length + 1) cmd := by
  have inside : front.length < (front ++ word :: behind).length := by simp
  have here : (front ++ word :: behind)[front.length] = word := by simp
  conv_lhs => rw [scan, dif_pos inside]
  simp only [here, plain, if_neg solid]

/-- An operator redirects a stream and is erased with its file. -/
theorem scan_operator (stage : ℕ) (op : Operator) (file : Arg) :
    scan fails (front ++ ⟨stage, op.text⟩ :: file :: behind) front.length cmd =
      .redirect op.flag file.text (scan fails (front ++ behind) 1 cmd) := by
  have inside : front.length < (front ++ ⟨stage, op.text⟩ :: file :: behind).length := by simp
  have second : front.length + 1 < (front ++ ⟨stage, op.text⟩ :: file :: behind).length := by
    simp
  have here : (front ++ ⟨stage, op.text⟩ :: file :: behind)[front.length] = ⟨stage, op.text⟩ := by
    simp
  have next : (front ++ ⟨stage, op.text⟩ :: file :: behind)[front.length + 1] = file := by
    simp [List.getElem_append_right]
  have left : (front ++ ⟨stage, op.text⟩ :: file :: behind).take front.length ++
      (front ++ ⟨stage, op.text⟩ :: file :: behind).drop (front.length + 2) = front ++ behind := by
    simp [List.drop_append]
  rw [scan, dif_pos inside]
  simp only [here, operator_text, dif_pos second, next, left]

/-- Behind an operator at the end of the words there is no file. -/
theorem scan_missing (stage : ℕ) (op : Operator) :
    scan fails (front ++ [Arg.mk stage op.text]) front.length cmd = .fault := by
  have inside : front.length < (front ++ [Arg.mk stage op.text]).length := by simp
  have second : ¬ front.length + 1 < (front ++ [Arg.mk stage op.text]).length := by simp
  have here : (front ++ [Arg.mk stage op.text])[front.length] = ⟨stage, op.text⟩ := by simp
  rw [scan, dif_pos inside]
  simp only [here, operator_text, dif_neg second]

/-- For the words in front of a `|` a process is forked. It executes them, or goes on behind the
`|`; the loop goes on without them. -/
theorem scan_pipe (stage : ℕ) :
    scan fails (front ++ ⟨stage, pipeWord⟩ :: behind) front.length cmd =
      .fork (stageOf front)
        (execvp fails (.words front)
          (scan fails (front ++ ⟨stage, pipeWord⟩ :: behind) (front.length + 1) cmd))
        (scan fails behind 1 (.words behind)) := by
  have inside : front.length < (front ++ ⟨stage, pipeWord⟩ :: behind).length := by simp
  have here : (front ++ ⟨stage, pipeWord⟩ :: behind)[front.length] = ⟨stage, pipeWord⟩ := by simp
  have segment : (front ++ ⟨stage, pipeWord⟩ :: behind).take front.length = front := by simp
  have rest : (front ++ ⟨stage, pipeWord⟩ :: behind).drop (front.length + 1) = behind := by
    simp [List.drop_append]
  conv_lhs => rw [scan, dif_pos inside]
  simp only [here, operator_pipeWord, if_true, segment, rest]

/-- The loop passes over several such words. -/
theorem scan_words (words : List Arg)
    (plain : ∀ word ∈ words, operator word.text = none ∧ word.text ≠ pipeWord) :
    scan fails (front ++ (words ++ behind)) front.length cmd =
      scan fails (front ++ (words ++ behind)) (front.length + words.length) cmd := by
  induction words generalizing front with
  | nil => rfl
  | cons word words ih =>
    have first := plain word List.mem_cons_self
    have passed := ih (front ++ [word]) fun other inside => plain other (.tail _ inside)
    rw [List.append_assoc, List.length_append] at passed
    rw [List.cons_append, scan_word fails front _ cmd word first.1 first.2, List.length_cons,
      Nat.add_comm words.length, ← Nat.add_assoc]
    exact passed

end

/-- The child of the line is the one of `forkChild`, where the rebuilt line fits in `newBuffer`. -/
theorem forkChild_eq {line : Bytes}
    (fits : (rebuilt (splitLine (cString line))).length < MAXLINE) (fails : Attempt → Bool) :
    forkChild fails line = (forkedWords line).map (child fails (splitLine (cString line))) := by
  unfold forkChild forkedWords parsedWords
  dsimp only
  rw [newBuffer, if_pos fits, Option.bind_eq_bind, Option.bind_some, parseLine]
  cases parseFrom false none (rebuilt (splitLine (cString line))) with
  | none => rfl
  | some argv =>
    cases argv with
    | nil => rfl
    | cons name argv =>
      simp only [Option.map_eq_map, Option.map_some, Option.bind_eq_bind, Option.bind_some,
        CommandLine.argv_ofWords, List.head?_cons, List.contains_iff_mem]
      split_ifs <;> rfl

/-- A forked child scans the words of the line, and executes the words parsed from `newBuffer`. -/
theorem forkChild_some {fails : Attempt → Bool} {line : Bytes} {p : Process}
    (forked : forkChild fails line = some p) :
    ∃ cmd : CommandLine, (newBuffer (splitLine (cString line))).bind parseLine = some cmd ∧
      cmd.argv ≠ [] ∧ p = child fails (splitLine (cString line)) cmd.argv := by
  obtain ⟨text, buffer, forked⟩ := Option.bind_eq_some_iff.mp forked
  obtain ⟨cmd, parsed, forked⟩ := Option.bind_eq_some_iff.mp forked
  obtain ⟨name, first, forked⟩ := Option.bind_eq_some_iff.mp forked
  split_ifs at forked
  refine ⟨cmd, by rw [buffer]; exact parsed, ?_, (Option.some.inj forked).symm⟩
  intro empty
  rw [empty] at first
  cases first

end TinyTools.Shell
