import TinyTools.Shell.DirStack

/-!
# Last in, first out

The directory commands on a stack, whose newest entry comes first, and the queue of the shell as an
implementation of it. The two agree as long as `getcwd` reads the directory that a `pushd` leaves
and the queue can be counted with an `int`.
-/

namespace TinyTools.Shell

open TinyTools.Lib

/-- The working directory and the entries, the newest first. -/
structure Lifo where
  /-- The path of the working directory. -/
  cwd : Bytes
  /-- The entries. -/
  entries : List Bytes
  deriving DecidableEq

namespace Lifo

/-- What a command does to the stack, when the directories that `popd` goes back to are there. -/
def step (l : Lifo) : Call → Lifo × Bytes
  | .cd arguments outcome =>
    if arguments = 0 then ({ l with cwd := outcome.getD l.cwd }, [])
    else if arguments = 1 then
      match outcome with
      | none => (l, bytes "Error: Invalid directory.\n")
      | some path => ({ l with cwd := path }, [])
    else (l, bytes "Error: Invalid use of cd command.\n")
  | .pushd arguments _ _ outcome =>
    if arguments = 1 then
      match outcome with
      | none => (l, bytes "pushd Error: Invalid directory.\n")
      | some path => (⟨path, l.cwd :: l.entries⟩, [])
    else (l, bytes "Pushd Usage Error.\n")
  | .popd _ =>
    match l.entries with
    | [] => (l, bytes "popd: directory stack empty\n")
    | dir :: rest => (⟨dir, rest⟩, [])
  | .dirstack => (l, l.entries.reverse.flatMap (· ++ bytes "\n"))

/-- The commands of a session. -/
def run (l : Lifo) : List Call → Lifo × Bytes
  | [] => (l, [])
  | call :: rest =>
    let (next, output) := l.step call
    let (last, later) := next.run rest
    (last, output ++ later)

/-- The stack that a queue stands for. -/
def of (s : Dirs) : Lifo := ⟨s.cwd, s.dirStack.reverse⟩

/-- A queue is determined by its stack. -/
theorem of_injective {s s' : Dirs} (same : of s = of s') : s = s' := by
  obtain ⟨cwd, dirStack⟩ := s
  obtain ⟨cwd', dirStack'⟩ := s'
  obtain ⟨rfl, entries⟩ := Lifo.mk.inj same
  exact congrArg _ (List.reverse_inj.mp entries)

/-- The state behind two parts of a session. -/
theorem run_append (l : Lifo) (front back : List Call) :
    (l.run (front ++ back)).1 = ((l.run front).1.run back).1 := by
  induction front generalizing l with
  | nil => rfl
  | cons call rest ih => exact ih (l.step call).1

end Lifo

/-! ## Balanced sessions -/

/-- The command is a listing or a `pushd` that does not succeed. -/
def Call.Idle : Call → Prop
  | .dirstack => True
  | .pushd arguments _ _ outcome => arguments ≠ 1 ∨ outcome = none
  | _ => False

/-- Every successful `pushd` is followed by its `popd`, with balanced commands in between. -/
inductive Balanced : List Call → Prop
  /-- No command. -/
  | nil : Balanced []
  /-- A command that changes nothing. -/
  | idle {call : Call} {rest : List Call} (calm : call.Idle) (after : Balanced rest) :
      Balanced (call :: rest)
  /-- A `pushd` and its `popd`. -/
  | nest {inner rest : List Call} (held : Bytes) (fails : Bool) (path : Bytes)
      (within : Balanced inner) (after : Balanced rest) :
      Balanced (.pushd 1 held fails (some path) :: (inner ++ .popd true :: rest))

/-- A command that changes nothing. -/
theorem Lifo.step_idle {call : Call} (calm : call.Idle) (l : Lifo) : (l.step call).1 = l := by
  cases call with
  | cd arguments outcome => exact calm.elim
  | popd succeeds => exact calm.elim
  | dirstack => rfl
  | pushd arguments held fails outcome =>
    dsimp only [Lifo.step]
    by_cases one : arguments = 1
    · obtain rfl := calm.resolve_left (not_not.mpr one)
      rw [if_pos one]
    · rw [if_neg one]

/-- Balanced commands end where they started. -/
theorem Balanced.run {calls : List Call} (balanced : Balanced calls) (l : Lifo) :
    (l.run calls).1 = l := by
  induction balanced generalizing l with
  | nil => rfl
  | idle calm after ih =>
    rename_i call rest
    change ((l.step call).1.run rest).1 = l
    rw [Lifo.step_idle calm, ih]
  | nest held fails path within after ih ih' =>
    rename_i inner rest
    change ((⟨path, l.cwd :: l.entries⟩ : Lifo).run (inner ++ .popd true :: rest)).1 = l
    rw [Lifo.run_append, ih]
    exact ih' l

/-! ## The queue as an implementation -/

/-- The directory that `pushd` leaves can be read, and the queue can be counted. -/
def StepFits (s : Dirs) : Call → Prop
  | .pushd arguments _ fails outcome =>
    arguments = 1 → outcome ≠ none → fails = false ∧ s.cwd.length < 1024
  | .popd _ => s.dirStack.length ≤ 2 ^ 31
  | .dirstack => s.dirStack.length < 2 ^ 31
  | _ => True

/-- Every command of a session fits in the state that it finds. -/
def Fits (s : Dirs) : List Call → Prop
  | [] => True
  | call :: rest =>
    StepFits s call ∧ ∀ s' output, step s call = some (s', output) → Fits s' rest

/-- The queue of the shell behaves as a stack in a session. -/
structure ActsAsLifo (s : Dirs) (calls : List Call) : Prop where
  /-- After every part of it the queue stands for the stack, and the printed texts are the same. -/
  refines : ∀ part, part <+: calls → ∃ s' output, run s part = some (s', output) ∧
    (Lifo.of s).run part = (Lifo.of s', output)
  /-- A balanced part ends in the directory and with the entries that it started with. -/
  balanced : ∀ before part, before ++ part <+: calls → Balanced part → ∃ s' output output',
    run s before = some (s', output) ∧ run s (before ++ part) = some (s', output')

/-- A command that fits does to the queue what it does to the stack. -/
theorem step_refines {s : Dirs} {call : Call} (fits : StepFits s call)
    (succeeds : call ≠ .popd false) : ∃ s' output, step s call = some (s', output) ∧
      (Lifo.of s).step call = (Lifo.of s', output) := by
  cases call with
  | cd arguments outcome =>
    dsimp only [step, Lifo.step]
    by_cases home : arguments = 0
    · rw [if_pos home, if_pos home]
      exact ⟨_, _, rfl, rfl⟩
    by_cases one : arguments = 1
    · rw [if_neg home, if_neg home, if_pos one, if_pos one]
      cases outcome with
      | none => exact ⟨_, _, rfl, rfl⟩
      | some path => exact ⟨_, _, rfl, rfl⟩
    · rw [if_neg home, if_neg home, if_neg one, if_neg one]
      exact ⟨_, _, rfl, rfl⟩
  | pushd arguments held fails outcome =>
    dsimp only [step, Lifo.step]
    by_cases one : arguments = 1
    · rw [if_pos one, if_pos one]
      cases outcome with
      | none => exact ⟨_, _, rfl, rfl⟩
      | some path =>
        have read : getcwd s.cwd held fails = s.cwd := if_pos (fits one (Option.some_ne_none path))
        refine ⟨_, _, rfl, ?_⟩
        rw [read]
        simp only [Lifo.of, List.reverse_append, List.reverse_singleton, List.singleton_append]
    · rw [if_neg one, if_neg one]
      exact ⟨_, _, rfl, rfl⟩
  | popd flag =>
    obtain rfl : flag = true := by
      cases flag with
      | false => exact absurd rfl succeeds
      | true => rfl
    obtain ⟨cwd, dirStack⟩ := s
    rcases List.eq_nil_or_concat dirStack with rfl | ⟨rest, dir, rfl⟩
    · exact ⟨_, _, rfl, rfl⟩
    · rw [List.concat_eq_append] at fits ⊢
      refine ⟨_, _, popdir_last cwd rest dir true fits, ?_⟩
      simp only [Lifo.step, Lifo.of, List.reverse_append, List.reverse_singleton,
        List.singleton_append]
  | dirstack =>
    refine ⟨_, _, congrArg some (printdirstack_all s fits), ?_⟩
    simp only [Lifo.step, Lifo.of, List.reverse_reverse]

/-- A session that fits does to the queue what it does to the stack. -/
theorem run_refines {s : Dirs} {calls : List Call} (fits : Fits s calls)
    (succeed : Call.popd false ∉ calls) : ∃ s' output, run s calls = some (s', output) ∧
      (Lifo.of s).run calls = (Lifo.of s', output) := by
  induction calls generalizing s with
  | nil => exact ⟨s, [], rfl, rfl⟩
  | cons call rest ih =>
    obtain ⟨here, later⟩ := fits
    obtain ⟨next, output, ran, same⟩ :=
      step_refines here fun fails => succeed (fails ▸ List.mem_cons_self)
    obtain ⟨last, output', ran', same'⟩ := ih (later next output ran)
      fun inside => succeed (List.mem_cons_of_mem call inside)
    refine ⟨last, output ++ output', ?_, ?_⟩
    · rw [run, ran, Option.bind_eq_bind, Option.bind_some]
      dsimp only
      rw [ran']
      rfl
    · rw [Lifo.run, same]
      dsimp only
      rw [same']

/-- The first part of a session that fits does. -/
theorem Fits.of_part {s : Dirs} {part calls : List Call} (front : part <+: calls)
    (fits : Fits s calls) : Fits s part := by
  obtain ⟨rest, rfl⟩ := front
  induction part generalizing s with
  | nil => trivial
  | cons call part ih => exact ⟨fits.1, fun s' output ran => ih (fits.2 s' output ran)⟩

/-- In every session whose steps all fit, and whose `popd` commands find their directories, the
queue of the shell behaves as a stack. -/
theorem actsAsLifo_of_fits {s : Dirs} {calls : List Call} (succeed : Call.popd false ∉ calls)
    (fits : Fits s calls) : ActsAsLifo s calls := by
  have runs (part : List Call) (front : part <+: calls) : ∃ s' output,
      run s part = some (s', output) ∧ (Lifo.of s).run part = (Lifo.of s', output) :=
    run_refines (fits.of_part front) fun inside => succeed (front.subset inside)
  refine ⟨runs, fun before part front balanced => ?_⟩
  obtain ⟨s', output, ran, same⟩ := runs before ((List.prefix_append before part).trans front)
  obtain ⟨s'', output', ran', same'⟩ := runs (before ++ part) front
  have back : Lifo.of s'' = Lifo.of s' := by
    have both := congrArg Prod.fst same'
    rw [Lifo.run_append, same, balanced.run] at both
    exact both.symm
  obtain rfl := Lifo.of_injective back
  exact ⟨s'', output, output', ran, ran'⟩

/-- Going down twice and coming back once. -/
theorem actsAsLifo_of_fits_twice : ActsAsLifo ⟨bytes "/home", []⟩
    [.pushd 1 [] false (some (bytes "/home/a")), .pushd 1 [] false (some (bytes "/home/a/b")),
      .popd true] := by
  refine actsAsLifo_of_fits (by decide) ⟨fun _ _ => ⟨rfl, by decide⟩, fun s' output ran => ?_⟩
  obtain ⟨rfl, -⟩ := Prod.mk.inj (Option.some.inj ran)
  refine ⟨fun _ _ => ⟨rfl, by decide⟩, fun s'' output' ran' => ?_⟩
  obtain ⟨rfl, -⟩ := Prod.mk.inj (Option.some.inj ran')
  exact ⟨show 2 ≤ 2 ^ 31 by decide, fun _ _ _ => trivial⟩

/-- A directory whose path does not fit into the array is not come back to: the entry holds what the
array held before. -/
theorem not_actsAsLifo_long : ¬ ActsAsLifo ⟨List.replicate 1024 47, []⟩
    [.pushd 1 (bytes "/home") false (some (bytes "/")), .popd true] := by
  intro acts
  have long : getcwd (List.replicate 1024 47) (bytes "/home") false = bytes "/home" := by
    apply if_neg
    rw [List.length_replicate]
    decide
  have balanced : Balanced [.pushd 1 (bytes "/home") false (some (bytes "/")), .popd true] :=
    .nest (bytes "/home") false (bytes "/") .nil .nil
  obtain ⟨s', output, output', ran, ran'⟩ := acts.balanced [] _ List.prefix_rfl balanced
  obtain ⟨rfl, -⟩ := Prod.mk.inj (Option.some.inj ran)
  have back (cwd held path : Bytes) : run ⟨cwd, []⟩ [.pushd 1 held false (some path), .popd true] =
      some (⟨getcwd cwd held false, []⟩, []) := rfl
  have moved := back (List.replicate 1024 47) (bytes "/home") (bytes "/")
  rw [long] at moved
  obtain ⟨same, -⟩ := Prod.mk.inj (Option.some.inj (moved.symm.trans ran'))
  have lengths := congrArg (fun s : Dirs => s.cwd.length) same
  rw [List.length_replicate] at lengths
  exact absurd lengths (by decide)

end TinyTools.Shell
