import TinyTools.Shell.Line

/-!
# The directory stack

The shell keeps the directories that `popd` goes back to in a queue, and rotates it to reach the
entry that was pushed last. Whether a `chdir` succeeds, and where it leads, is part of the command
here; a directory that `getcwd` named leads to itself. A command has no value where the source
counts past the largest `int`.
-/

namespace TinyTools.Shell

open TinyTools.Lib

/-- The working directory and `dirStack`, whose front comes first. -/
structure Dirs where
  /-- The path of the working directory. -/
  cwd : Bytes
  /-- `dirStack`. -/
  dirStack : List Bytes
  deriving DecidableEq

/-- A directory command with the number of its arguments and what the system answers. -/
inductive Call
  /-- `cd`, and the directory that `chdir` leads to, if it succeeds. -/
  | cd (arguments : ℕ) (outcome : Option Bytes)
  /-- `pushd`, the string that its array holds at first, whether `getcwd` fails on a path that would
  fit, and the directory that `chdir` leads to, if it succeeds. -/
  | pushd (arguments : ℕ) (held : Bytes) (fails : Bool) (outcome : Option Bytes)
  /-- `popd`, and whether its `chdir` succeeds. -/
  | popd (succeeds : Bool)
  /-- `dirstack`. -/
  | dirstack
  deriving DecidableEq

/-- The string in the array of 1024 bytes behind `getcwd`, whose answer is not looked at: the path,
or the string that was there if the path does not fit or cannot be read. -/
def getcwd (cwd held : Bytes) (fails : Bool) : Bytes :=
  if fails = false ∧ cwd.length < 1024 then cwd else held

/-- `pushdir`, with the text that it prints. -/
def pushdir (s : Dirs) (held : Bytes) (fails : Bool) : Option Bytes → Dirs × Bytes
  | none => (s, bytes "pushd Error: Invalid directory.\n")
  | some path => (⟨path, s.dirStack ++ [getcwd s.cwd held fails]⟩, [])

/-- The front of the queue is moved to its back. -/
def rotateOnce : List Bytes → List Bytes
  | [] => []
  | dir :: rest => rest ++ [dir]

/-- A rotated queue is as long as before. -/
@[simp]
theorem length_rotateOnce (dirStack : List Bytes) :
    (rotateOnce dirStack).length = dirStack.length := by
  cases dirStack with
  | nil => rfl
  | cons dir rest => exact List.length_append

/-- `for(int i = 0; i < dirStack.size()-1; i++)`, from some `i` on. -/
def rotateLoop (i : ℕ) (dirStack : List Bytes) : Option (List Bytes) :=
  if i < dirStack.length - 1 then
    if i + 1 < 2 ^ 31 then rotateLoop (i + 1) (rotateOnce dirStack) else none
  else some dirStack
termination_by dirStack.length - 1 - i
decreasing_by
  rw [length_rotateOnce]
  omega

/-- The last entry of the queue is brought to its front. -/
def bringLast (dirStack : List Bytes) : Option (List Bytes) :=
  if dirStack.length > 1 then rotateLoop 0 dirStack else some dirStack

/-- `popdir`, with the text that it prints. -/
def popdir (s : Dirs) (succeeds : Bool) : Option (Dirs × Bytes) :=
  if s.dirStack = [] then some (s, bytes "popd: directory stack empty\n")
  else do
    match ← bringLast s.dirStack with
    | [] => none
    | dir :: rest =>
      if succeeds then some (⟨dir, rest⟩, [])
      else some (⟨s.cwd, rest⟩, bytes "pushd Error: Invalid directory.\n")

/-- `for(int i = 0; i < sz; i++)` over the queue, with the text that it prints. -/
def printLoop : ℕ → List Bytes → List Bytes × Bytes
  | 0, dirStack => (dirStack, [])
  | _ + 1, [] => ([], [])
  | rounds + 1, dir :: rest =>
    let (dirStack, output) := printLoop rounds (rest ++ [dir])
    (dirStack, dir ++ bytes "\n" ++ output)

/-- `Printdirstack`: the size is cut to an `int`, and a negative one ends the loop at once. -/
def printdirstack (s : Dirs) : Dirs × Bytes :=
  let sz := (s.dirStack.length : ℤ).bmod (2 ^ 32)
  let listing := printLoop sz.toNat s.dirStack
  ({ s with dirStack := listing.1 }, listing.2)

/-- The branches of `main` for the directory commands. -/
def step (s : Dirs) : Call → Option (Dirs × Bytes)
  | .cd arguments outcome =>
    if arguments = 0 then some ({ s with cwd := outcome.getD s.cwd }, [])
    else if arguments = 1 then
      match outcome with
      | none => some (s, bytes "Error: Invalid directory.\n")
      | some path => some ({ s with cwd := path }, [])
    else some (s, bytes "Error: Invalid use of cd command.\n")
  | .pushd arguments held fails outcome =>
    if arguments = 1 then some (pushdir s held fails outcome)
    else some (s, bytes "Pushd Usage Error.\n")
  | .popd succeeds => popdir s succeeds
  | .dirstack => some (printdirstack s)

/-- The commands of a session, with the text that they print. -/
def run (s : Dirs) : List Call → Option (Dirs × Bytes)
  | [] => some (s, [])
  | call :: rest => do
    let (s, output) ← step s call
    let (s, later) ← run s rest
    return (s, output ++ later)

/-! ## The queue as a stack -/

/-- The rotation ends with the queue rotated up to its last entry. -/
theorem rotateLoop_eq (i : ℕ) (dirStack : List Bytes) (short : dirStack.length ≤ 2 ^ 31) :
    rotateLoop i dirStack = some (dirStack.rotate (dirStack.length - 1 - i)) := by
  fun_induction rotateLoop i dirStack with
  | case1 i dirStack more next ih =>
    rw [ih (by rwa [length_rotateOnce]), length_rotateOnce]
    obtain ⟨dir, rest, rfl⟩ := List.exists_cons_of_ne_nil
      (List.ne_nil_of_length_pos (by omega : 0 < dirStack.length))
    have left : (dir :: rest).length - 1 - i = (dir :: rest).length - 1 - (i + 1) + 1 := by omega
    rw [left, List.rotate_cons_succ]
    rfl
  | case2 i dirStack more last => omega
  | case3 i dirStack done =>
    have none : dirStack.length - 1 - i = 0 := by omega
    rw [none, List.rotate_zero]

/-- The rotation keeps the number of entries. -/
theorem length_rotateLoop {i : ℕ} {dirStack rotated : List Bytes}
    (ran : rotateLoop i dirStack = some rotated) : rotated.length = dirStack.length := by
  fun_induction rotateLoop i dirStack with
  | case1 i dirStack more next ih => rw [ih ran, length_rotateOnce]
  | case2 i dirStack more last => cases ran
  | case3 i dirStack done => rw [Option.some.inj ran]

/-- `popd` takes the entry that was pushed last. -/
theorem popdir_last (cwd : Bytes) (rest : List Bytes) (dir : Bytes) (succeeds : Bool)
    (short : (rest ++ [dir]).length ≤ 2 ^ 31) : popdir ⟨cwd, rest ++ [dir]⟩ succeeds =
      if succeeds then some (⟨dir, rest⟩, [])
      else some (⟨cwd, rest⟩, bytes "pushd Error: Invalid directory.\n") := by
  have rotated : bringLast (rest ++ [dir]) = some (dir :: rest) := by
    unfold bringLast
    split_ifs with more
    · have size : (rest ++ [dir]).length - 1 - 0 = rest.length := by simp
      rw [rotateLoop_eq 0 _ short, size, List.rotate_append_length_eq]
      rfl
    · have alone : rest = [] := by
        rw [← List.length_eq_zero_iff]
        rw [List.length_append, List.length_singleton] at more
        omega
      rw [alone]
      rfl
  rw [popdir, if_neg (by simp), rotated]
  rfl

/-- The listing prints as many entries as it goes through, and rotates the queue by as many. -/
theorem printLoop_eq (rounds : ℕ) (dirStack : List Bytes) (within : rounds ≤ dirStack.length) :
    printLoop rounds dirStack = (dirStack.rotate rounds,
      (dirStack.take rounds).flatMap (· ++ bytes "\n")) := by
  induction rounds generalizing dirStack with
  | zero => rw [List.rotate_zero]; rfl
  | succ rounds ih =>
    obtain ⟨dir, rest, rfl⟩ := List.exists_cons_of_ne_nil
      (List.ne_nil_of_length_pos (by omega : 0 < dirStack.length))
    have inside : rounds ≤ rest.length := Nat.le_of_succ_le_succ within
    have front : (rest ++ [dir]).take rounds = rest.take rounds :=
      List.take_append_of_le_length inside
    rw [printLoop, ih (rest ++ [dir]) (by simp; omega), front, List.rotate_cons_succ,
      List.take_succ_cons, List.flatMap_cons]

/-- The listing prints all entries, the oldest first, and leaves the queue as it was. -/
theorem printdirstack_all (s : Dirs) (short : s.dirStack.length < 2 ^ 31) :
    printdirstack s = (s, s.dirStack.flatMap (· ++ bytes "\n")) := by
  have size : ((s.dirStack.length : ℤ).bmod (2 ^ 32)).toNat = s.dirStack.length := by
    rw [Int.bmod_eq_of_le (by omega) (by omega), Int.toNat_natCast]
  unfold printdirstack
  dsimp only
  rw [size, printLoop_eq _ _ le_rfl, List.rotate_length, List.take_length]

/-! ## Commands whose `chdir` fails -/

/-- A `chdir` that `pushd` or `popd` performs fails. -/
def ChdirFails (s : Dirs) : Call → Prop
  | .pushd arguments _ _ outcome => arguments = 1 ∧ outcome = none
  | .popd succeeds => succeeds = false ∧ s.dirStack ≠ []
  | _ => False

/-- The command is `pushd`. -/
def Call.IsPushd : Call → Prop
  | .pushd _ _ _ _ => True
  | _ => False

/-- The command leaves the working directory and the entries as they are. -/
def Atomic (s : Dirs) (call : Call) : Prop := ∃ output, step s call = some (s, output)

/-- A `popd` whose `chdir` fails has lost an entry. -/
theorem popdir_fails {s s' : Dirs} {output : Bytes} (some_ : s.dirStack ≠ [])
    (ran : popdir s false = some (s', output)) :
    s'.cwd = s.cwd ∧ s'.dirStack.length + 1 = s.dirStack.length := by
  rw [popdir, if_neg some_] at ran
  obtain ⟨rotated, brought, ran⟩ := Option.bind_eq_some_iff.mp ran
  have length : rotated.length = s.dirStack.length := by
    unfold bringLast at brought
    split_ifs at brought
    · exact length_rotateLoop brought
    · rw [Option.some.inj brought]
  cases rotated with
  | nil => cases ran
  | cons dir rest =>
    obtain ⟨rfl, -⟩ := Prod.mk.inj (Option.some.inj ran)
    exact ⟨rfl, length⟩

/-- A command whose `chdir` fails changes nothing exactly when it is `pushd`. -/
theorem atomic_iff {s : Dirs} {call : Call} (fails : ChdirFails s call) :
    Atomic s call ↔ call.IsPushd := by
  cases call with
  | cd arguments outcome => exact fails.elim
  | dirstack => exact fails.elim
  | pushd arguments held failed outcome =>
    obtain ⟨rfl, rfl⟩ := fails
    exact iff_of_true ⟨_, rfl⟩ trivial
  | popd succeeds =>
    obtain ⟨rfl, some_⟩ := fails
    refine iff_of_false ?_ id
    rintro ⟨output, ran⟩
    have lost := (popdir_fails some_ ran).2
    omega

/-- A `pushd` into a directory that is missing changes nothing. -/
theorem atomic_iff_pushd : Atomic ⟨bytes "/home", [bytes "/"]⟩ (.pushd 1 [] false none) := by
  have fails : ChdirFails ⟨bytes "/home", [bytes "/"]⟩ (.pushd 1 [] false none) := ⟨rfl, rfl⟩
  exact (atomic_iff fails).mpr trivial

/-- A `popd` to a directory that was removed loses its entry. -/
theorem not_atomic_popd : ChdirFails ⟨bytes "/", [bytes "/a"]⟩ (.popd false) ∧
    ¬ Atomic ⟨bytes "/", [bytes "/a"]⟩ (.popd false) := by
  refine ⟨⟨rfl, List.cons_ne_nil _ _⟩, ?_⟩
  rintro ⟨output, ran⟩
  have lost := (popdir_fails (List.cons_ne_nil _ _) ran).2
  exact absurd lost (by decide)

end TinyTools.Shell
