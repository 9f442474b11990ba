import TinyTools.Shell.Redirections

/-!
# Malformed lines

The loop of the child looks one word ahead, and it shortens the words as it goes on. The first of
them it does not look at again, so an operator there takes no file. Whatever it has skipped in this
way, a process whose command fails comes to see all words behind the first one: taken with their
files from left to right, no operator may be without one, and no `|` may be left at the end.
-/

namespace TinyTools.Shell

open TinyTools.Lib

/-- The words that are left when every operator is taken with the word behind it. -/
def keptWords : List Word → List Word
  | [] => []
  | [word] => if (operator word).isSome then [] else [word]
  | word :: next :: rest =>
    if (operator word).isSome then keptWords rest else word :: keptWords (next :: rest)

/-- Every operator has a file, and what is left does not end with `|`. -/
def Closed (words : List Word) : Prop :=
  Paired words ∧ (keptWords words).getLast? ≠ some pipeWord

/-- The words of a line that can be scanned: no `|` comes first, and what is behind the first word,
or behind a redirection and one further word, is closed. -/
def Arranged : List Word → Prop
  | [] => True
  | word :: rest =>
    if (operator word).isSome then rest ≠ [] ∧ Closed rest.tail.tail
    else word ≠ pipeWord ∧ Closed rest

instance decidablePaired : DecidablePred Paired
  | [] => inferInstanceAs (Decidable True)
  | [word] => inferInstanceAs (Decidable (operator word = none))
  | word :: file :: rest =>
    let _ := decidablePaired rest
    let _ := decidablePaired (file :: rest)
    inferInstanceAs (Decidable (if (operator word).isSome then Paired rest else
      Paired (file :: rest)))

instance : DecidablePred Closed := fun words =>
  inferInstanceAs (Decidable (Paired words ∧ (keptWords words).getLast? ≠ some pipeWord))

instance : DecidablePred Arranged
  | [] => inferInstanceAs (Decidable True)
  | word :: rest => inferInstanceAs (Decidable (if (operator word).isSome then
      rest ≠ [] ∧ Closed rest.tail.tail else word ≠ pipeWord ∧ Closed rest))

/-- No process reads behind the words, or executes nothing. -/
def Process.Safe : Process → Prop
  | redirect _ _ next => next.Safe
  | fork _ child next => child.Safe ∧ next.Safe
  | started _ => True
  | returned _ next => next.Safe
  | free _ next => next.Safe
  | exit => True
  | fault => False

/-- The child that is forked for a line stays among its words, whichever commands fail. -/
def StaysInArgs (line : Bytes) : Prop :=
  ∀ argv, forkedWords line = some argv → ∀ fails, (child fails (splitLine (cString line)) argv).Safe

/-! ## Words and their files -/

section

variable {word : Word} {rest : List Word}

/-- A word that is no operator is left. -/
theorem keptWords_plain (plain : operator word = none) (rest : List Word) :
    keptWords (word :: rest) = word :: keptWords rest := by
  have kept : ¬ (operator word).isSome = true := by simp [plain]
  cases rest with
  | nil => exact if_neg kept
  | cons next rest => exact if_neg kept

/-- A word that is no operator needs no file. -/
theorem paired_plain (plain : operator word = none) : Paired (word :: rest) ↔ Paired rest := by
  cases rest with
  | nil => exact iff_of_true plain trivial
  | cons next rest => rw [Paired, if_neg (by simp [plain])]

/-- An operator is taken with its file. -/
theorem keptWords_operator (op : Operator) (file : Word) (rest : List Word) :
    keptWords (op.text :: file :: rest) = keptWords rest :=
  if_pos (operator_isSome op)

/-- An operator that has a file makes no difference. -/
theorem paired_operator (op : Operator) (file : Word) :
    Paired (op.text :: file :: rest) ↔ Paired rest := by
  rw [Paired, if_pos (operator_isSome op)]

/-- An operator alone has no file. -/
theorem not_paired_operator (op : Operator) : ¬ Paired [op.text] := by
  intro paired
  rw [Paired, operator_text] at paired
  cases paired

end

/-- What is behind words that are left. -/
theorem keptWords_append {front : List Word} (plain : ∀ word ∈ front, operator word = none)
    (rest : List Word) :
    keptWords (front ++ rest) = front ++ keptWords rest ∧
      (Paired (front ++ rest) ↔ Paired rest) := by
  induction front with
  | nil => exact ⟨rfl, Iff.rfl⟩
  | cons word front ih =>
    obtain ⟨kept, paired⟩ := ih fun other inside => plain other (.tail _ inside)
    have first := plain word (.head _)
    constructor
    · rw [List.cons_append, keptWords_plain first, kept, List.cons_append]
    · rw [List.cons_append, paired_plain first, paired]

/-- The first of some words can be left out, when something is left and it does not end with `|`:
where an operator is left out its file takes its place, and sooner or later both ways meet. -/
theorem closed_tail {word : Word} {rest : List Word} (paired : Paired (word :: rest))
    (some_ : keptWords (word :: rest) ≠ [])
    (last : (keptWords (word :: rest)).getLast? ≠ some pipeWord) : Closed rest := by
  induction length : rest.length using Nat.strong_induction_on generalizing word rest with
  | _ length ih =>
  cases stands : operator word with
  | none =>
    rw [keptWords_plain stands] at last
    refine ⟨(paired_plain stands).mp paired, fun pipe => last ?_⟩
    rw [List.getLast?_cons, pipe]
    rfl
  | some op =>
    rw [operator_eq_some stands] at paired some_ last
    cases rest with
    | nil => exact absurd paired (not_paired_operator op)
    | cons file rest =>
      rw [keptWords_operator] at some_ last
      rw [paired_operator] at paired
      cases file_ : operator file with
      | none =>
        refine ⟨(paired_plain file_).mpr paired, ?_⟩
        rw [keptWords_plain file_, List.getLast?_cons]
        rw [List.getLast?_eq_some_getLast some_] at last ⊢
        exact last
      | some op' =>
        rw [operator_eq_some file_]
        cases rest with
        | nil => exact absurd rfl some_
        | cons next rest =>
          have tail := ih rest.length (by rw [← length]; simp only [List.length_cons]; omega) paired
            some_ last rfl
          refine ⟨(paired_operator op' next).mpr tail.1, ?_⟩
          rw [keptWords_operator]
          exact tail.2

/-! ## Words that are closed -/

section

variable {passed : List Arg} (plain : ∀ arg ∈ passed, operator arg.text = none)
include plain

/-- Closed words behind others that are no operators. -/
theorem closed_append_iff (behind : List Arg) :
    Closed ((passed ++ behind).map Arg.text) ↔ Paired (behind.map Arg.text) ∧
      (passed.map Arg.text ++ keptWords (behind.map Arg.text)).getLast? ≠ some pipeWord := by
  have plain_ : ∀ word ∈ passed.map Arg.text, operator word = none := by
    intro word inside
    obtain ⟨arg, among, rfl⟩ := List.mem_map.mp inside
    exact plain arg among
  obtain ⟨kept, paired⟩ := keptWords_append plain_ (behind.map Arg.text)
  rw [List.map_append, Closed, kept, paired]

/-- A redirection between them makes no difference. -/
theorem closed_erase_iff (stage : ℕ) (op : Operator) (file : Arg) (behind : List Arg) :
    Closed ((passed ++ ⟨stage, op.text⟩ :: file :: behind).map Arg.text) ↔
      Closed ((passed ++ behind).map Arg.text) := by
  rw [closed_append_iff plain, closed_append_iff plain, List.map_cons, List.map_cons,
    paired_operator, keptWords_operator]

/-- One more word that is no operator is passed. -/
theorem plain_snoc {arg : Arg} (next : operator arg.text = none) :
    ∀ other ∈ passed ++ [arg], operator other.text = none := by
  intro other inside
  cases List.mem_append.mp inside with
  | inl before => exact plain other before
  | inr last =>
    rw [List.mem_singleton.mp last]
    exact next

/-- Behind a `|` of closed words there is a word, and what is behind this one is closed. -/
theorem closed_behind_pipe {stage : ℕ} {behind : List Arg}
    (closed : Closed ((passed ++ ⟨stage, pipeWord⟩ :: behind).map Arg.text)) :
    ∃ next rest, behind = next :: rest ∧ Closed (rest.map Arg.text) := by
  obtain ⟨paired, last⟩ := (closed_append_iff plain _).mp closed
  rw [List.map_cons, paired_plain operator_pipeWord] at paired
  rw [List.map_cons, keptWords_plain operator_pipeWord] at last
  have some_ : keptWords (behind.map Arg.text) ≠ [] := by
    intro none
    rw [none, List.getLast?_append_of_ne_nil _ (List.cons_ne_nil _ _)] at last
    exact last rfl
  rw [List.getLast?_append_of_ne_nil _ (List.cons_ne_nil _ _), List.getLast?_cons,
    List.getLast?_eq_some_getLast some_, Option.getD_some] at last
  rw [← List.getLast?_eq_some_getLast some_] at last
  cases behind with
  | nil => exact absurd rfl some_
  | cons next rest => exact ⟨next, rest, rfl, closed_tail paired some_ last⟩

end

/-- A call of `execvp` with words is safe where what follows its failure is. -/
theorem execvp_safe (fails : Attempt → Bool) {attempt : Attempt} {next : Process}
    (some_ : attempt.argv ≠ []) (safe : next.Safe) : (execvp fails attempt next).Safe := by
  rw [execvp, if_neg some_]
  split_ifs
  · exact safe
  · trivial

/-- The loop goes on at the next word. -/
theorem scan_snoc (fails : Attempt → Bool) (cmd : Attempt) (first arg : Arg)
    (passed rest : List Arg) :
    scan fails ((first :: (passed ++ [arg])) ++ rest) (first :: (passed ++ [arg])).length cmd =
      scan fails ((first :: passed) ++ arg :: rest) ((first :: passed).length + 1) cmd := by
  rw [← List.cons_append, List.append_assoc, List.singleton_append, List.length_append]
  rfl

/-- Closed words are scanned from any of them on without a fault, if no operator has been passed. -/
theorem scan_safe (fails : Attempt → Bool) {cmd : Attempt} (some_ : cmd.argv ≠ []) (first : Arg)
    (passed behind : List Arg) (plain : ∀ arg ∈ passed, operator arg.text = none)
    (closed : Closed ((passed ++ behind).map Arg.text)) :
    (scan fails ((first :: passed) ++ behind) (first :: passed).length cmd).Safe := by
  induction total : passed.length + behind.length using Nat.strong_induction_on
    generalizing cmd first passed behind with
  | _ total shorter =>
  induction behind generalizing passed with
  | nil =>
    rw [List.append_nil, scan_end fails cmd _ le_rfl]
    exact execvp_safe fails some_ trivial
  | cons arg rest onward =>
    have goesOn (next : operator arg.text = none) :
        (scan fails ((first :: passed) ++ arg :: rest)
          ((first :: passed).length + 1) cmd).Safe := by
      rw [← scan_snoc]
      exact onward (passed ++ [arg]) (plain_snoc plain next)
        (by rwa [List.append_assoc, List.singleton_append])
        (by rw [List.length_append, List.length_singleton, ← total, List.length_cons]; omega)
    cases stands : operator arg.text with
    | some op =>
      obtain ⟨stage, text⟩ := arg
      obtain rfl : text = op.text := operator_eq_some stands
      cases rest with
      | nil => exact absurd ((closed_append_iff plain _).mp closed).1 (not_paired_operator op)
      | cons file rest =>
        rw [scan_operator]
        have closed' := (closed_erase_iff plain stage op file rest).mp closed
        exact shorter (passed ++ rest).length
          (by simp only [List.length_append, List.length_cons] at total ⊢; omega) some_ first []
          (passed ++ rest) nofun closed' (Nat.zero_add _)
    | none =>
      by_cases pipe : arg.text = pipeWord
      · obtain ⟨stage, text⟩ := arg
        obtain rfl : text = pipeWord := pipe
        obtain ⟨next, others, rfl, closed'⟩ := closed_behind_pipe plain closed
        rw [scan_pipe]
        constructor
        · exact execvp_safe fails (List.cons_ne_nil _ _) (goesOn stands)
        · have words : (Attempt.words (next :: others)).argv ≠ [] := List.cons_ne_nil _ _
          exact shorter others.length (by simp only [List.length_cons] at total; omega) words next
            [] others nofun closed' (Nat.zero_add _)
      · rw [scan_word fails (first :: passed) rest cmd arg stands pipe]
        exact goesOn stands

/-! ## Words that are not closed -/

/-- When every command fails, words that are not closed lead to a fault, as long as some of them
have not been passed. -/
theorem scan_faults {cmd : Attempt} (first : Arg) (passed behind : List Arg)
    (plain : ∀ arg ∈ passed, operator arg.text = none) (some_ : behind ≠ [])
    (open_ : ¬ Closed ((passed ++ behind).map Arg.text)) :
    ¬ (scan (fun _ => true) ((first :: passed) ++ behind) (first :: passed).length cmd).Safe := by
  induction total : passed.length + behind.length using Nat.strong_induction_on
    generalizing cmd first passed behind with
  | _ total shorter =>
  induction behind generalizing passed with
  | nil => exact absurd rfl some_
  | cons arg rest onward =>
    have goesOn (next : operator arg.text = none) (more : rest ≠ []) :
        ¬ (scan (fun _ => true) ((first :: passed) ++ arg :: rest) ((first :: passed).length + 1)
          cmd).Safe := by
      rw [← scan_snoc]
      exact onward (passed ++ [arg]) (plain_snoc plain next) more
        (by rwa [List.append_assoc, List.singleton_append])
        (by rw [List.length_append, List.length_singleton, ← total, List.length_cons]; omega)
    cases stands : operator arg.text with
    | some op =>
      obtain ⟨stage, text⟩ := arg
      obtain rfl : text = op.text := operator_eq_some stands
      cases rest with
      | nil =>
        rw [scan_missing]
        exact id
      | cons file rest =>
        rw [scan_operator]
        rw [closed_erase_iff plain] at open_
        have more : passed ++ rest ≠ [] := by
          intro none
          rw [none] at open_
          exact open_ ⟨trivial, nofun⟩
        exact shorter (passed ++ rest).length
          (by simp only [List.length_append, List.length_cons] at total ⊢; omega) first []
          (passed ++ rest) nofun more open_ (Nat.zero_add _)
    | none =>
      by_cases pipe : arg.text = pipeWord
      · obtain ⟨stage, text⟩ := arg
        obtain rfl : text = pipeWord := pipe
        rw [scan_pipe]
        intro safe
        by_cases more : rest = []
        · have last := scan_end (fun _ => true) (.words []) [] (Nat.zero_le 1)
          rw [more, last, execvp, if_pos rfl] at safe
          exact safe.2
        · exact goesOn stands more safe.1
      · have more : rest ≠ [] := by
          intro none
          rw [none, closed_append_iff plain] at open_
          apply open_
          constructor
          · exact stands
          · rw [List.map_singleton, keptWords_plain stands, keptWords,
              List.getLast?_append_of_ne_nil _ (List.cons_ne_nil _ _), List.getLast?_singleton]
            exact fun same => pipe (Option.some.inj same)
        rw [scan_word _ (first :: passed) rest cmd arg stands pipe]
        exact goesOn stands more

/-! ## Whole lines -/

/-- The words behind the first one, where the loop begins with the second, are closed exactly when
no outcome of the commands leads to a fault. -/
theorem scan_second_iff {cmd : Attempt} (some_ : cmd.argv ≠ []) (args : List Arg) :
    (∀ fails, (scan fails args 1 cmd).Safe) ↔ Closed (args.tail.map Arg.text) := by
  cases args with
  | nil =>
    refine iff_of_true (fun fails => ?_) ⟨trivial, nofun⟩
    rw [scan_end fails cmd [] (Nat.zero_le 1)]
    exact execvp_safe fails some_ trivial
  | cons first behind =>
    constructor
    · intro safe
      by_contra open_
      have more : behind ≠ [] := by
        intro none
        rw [none] at open_
        exact open_ ⟨trivial, nofun⟩
      exact scan_faults first [] behind nofun more open_ (safe fun _ => true)
    · intro closed fails
      exact scan_safe fails some_ first [] behind nofun closed

/-- The child for words that are not all redirections is safe, whichever commands fail, exactly when
they are arranged. -/
theorem child_safe_iff {argv : List Word} (some_ : argv ≠ []) {args : List Word}
    (kept : rebuilt args ≠ []) :
    (∀ fails, (child fails args argv).Safe) ↔ Arranged args := by
  have words : (Attempt.line argv).argv ≠ [] := some_
  cases args with
  | nil => exact absurd rfl kept
  | cons word rest =>
    unfold child
    rw [number, Arranged]
    generalize (if word = pipeWord then 0 + 1 else 0) = stage
    cases stands : operator word with
    | some op =>
      obtain rfl : word = op.text := operator_eq_some stands
      rw [if_pos Option.isSome_some]
      cases rest with
      | nil =>
        have none : rebuilt [op.text] = [] := if_pos (by rw [stands]; rfl)
        exact absurd none kept
      | cons file rest =>
        rw [number]
        generalize (if file = pipeWord then stage + 1 else stage) = stage'
        have first (fails : Attempt → Bool) := congrArg Process.Safe
          (scan_operator fails [] (number stage' rest) (.line argv) 0 op ⟨stage, file⟩)
        have second := scan_second_iff words (number stage' rest)
        rw [List.map_tail, number_text] at second
        refine Iff.trans (forall_congr' fun fails => ?_)
          (second.trans (iff_and_self.mpr fun _ => List.cons_ne_nil _ _))
        exact Iff.of_eq (first fails)
    | none =>
      rw [if_neg (by decide)]
      by_cases pipe : word = pipeWord
      · refine iff_of_false (fun safe => ?_) (fun arranged => arranged.1 pipe)
        have first := scan_pipe (fun _ => true) [] (number stage rest) (.line argv) 0
        have fork := safe fun _ => true
        rw [pipe] at fork
        rw [List.nil_append, List.length_nil] at first
        rw [first, execvp, if_pos rfl] at fork
        exact fork.1
      · have first (fails : Attempt → Bool) := congrArg Process.Safe
          (scan_word fails [] (number stage rest) (.line argv) ⟨0, word⟩ stands pipe)
        have second := scan_second_iff words (⟨0, word⟩ :: number stage rest)
        rw [List.tail_cons, number_text] at second
        refine Iff.trans (forall_congr' fun fails => ?_)
          (second.trans (iff_and_self.mpr fun _ => pipe))
        exact Iff.of_eq (first fails)

/-- A line for which a child is forked. -/
theorem staysInArgs_forked {line : Bytes} {argv : List Word}
    (forked : forkedWords line = some argv) :
    StaysInArgs line ↔ Arranged (splitLine (cString line)) := by
  obtain ⟨words, read, rest⟩ := Option.bind_eq_some_iff.mp forked
  obtain ⟨name, first, kept⟩ := Option.bind_eq_some_iff.mp rest
  split_ifs at kept with builtin
  obtain rfl := Option.some.inj kept
  unfold parsedWords at read
  have some_ : words ≠ [] := by
    intro none
    rw [none] at first
    cases first
  have notNothing : rebuilt (splitLine (cString line)) ≠ [] := by
    intro none
    rw [none] at read
    exact some_ (Option.some.inj read).symm
  rw [← child_safe_iff some_ notNothing]
  constructor
  · intro stays
    exact stays words forked
  · intro safe argv same
    rw [← Option.some.inj (forked.symm.trans same)]
    exact safe

/-- For every line, the child stays among its words, whichever commands fail, exactly when `main`
forks none or the words are arranged. -/
theorem staysInArgs_iff (line : Bytes) :
    StaysInArgs line ↔ (forkedWords line = none ∨ Arranged (splitLine (cString line))) := by
  cases forked : forkedWords line with
  | none => exact iff_of_true (fun argv some_ => by rw [forked] at some_; cases some_) (Or.inl rfl)
  | some argv => rw [staysInArgs_forked forked, or_iff_right (by exact nofun)]

/-- An operator without a file at the end of a line, a `|` there, and one at its begin. -/
theorem not_staysInArgs_edges :
    ¬ StaysInArgs (bytes "cat <") ∧ ¬ StaysInArgs (bytes "a |") ∧ ¬ StaysInArgs (bytes "| a") := by
  have operator_ : forkedWords (bytes "cat <") = some [bytes "cat"] := by decide
  have last : forkedWords (bytes "a |") = some [bytes "a", bytes "|"] := by decide
  have first : forkedWords (bytes "| a") = some [bytes "|", bytes "a"] := by decide
  rw [staysInArgs_forked operator_, staysInArgs_forked last, staysInArgs_forked first]
  decide

end TinyTools.Shell
