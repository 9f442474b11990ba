import TinyTools.Shell.Pipeline

/-!
# Stages that fail

A process that is forked for a segment executes its words. When that fails it goes on with the scan
behind the `|` of its segment. Nothing there is done again as long as no further `|` and no operator
follows: it comes to the end of the loop and executes `cmd`, which begins with the words of its own
segment. A further `|` makes it fork once more for its own segment, and then take the part of the
shell for the segments behind. An operator sends it back to its own `|`, to the same effect.
-/

namespace TinyTools.Shell

open TinyTools.Lib

/-- The calls of `execvp` fail for some segments, and for the line as `main` parsed it or not. -/
def stageFails (failing : ℕ → Bool) (lineFails : Bool) : Attempt → Bool
  | .words args => failing (stageOf args)
  | .line _ => lineFails

/-- The commands that are started by a process and by those it forks. -/
def Process.starts : Process → List Attempt
  | redirect _ _ next => next.starts
  | fork _ child next => child.starts ++ next.starts
  | started attempt => [attempt]
  | returned _ next => next.starts
  | free _ next => next.starts
  | exit | fault => []

/-- A process neither forks nor executes for another segment than its own. -/
def Process.Loyal (stage : ℕ) : Process → Prop
  | redirect _ _ next => next.Loyal stage
  | fork other _ next => other = stage ∧ next.Loyal stage
  | started attempt => attempt.stage = stage
  | returned attempt next => attempt.stage = stage ∧ next.Loyal stage
  | free _ next => next.Loyal stage
  | exit => True
  | fault => False

/-- Every process that is forked stays with the segment that it is forked for. -/
def Process.Dedicated : Process → Prop
  | redirect _ _ next => next.Dedicated
  | fork stage child next => child.Loyal stage ∧ child.Dedicated ∧ next.Dedicated
  | returned _ next => next.Dedicated
  | free _ next => next.Dedicated
  | started _ | exit | fault => True

/-- No failed stage runs the pipeline again. -/
structure Process.RunsOnce (p : Process) : Prop where
  /-- The command of a segment is started in one process at most. -/
  once : (p.starts.map Attempt.stage).Nodup
  /-- Processes stay with their segments. -/
  dedicated : p.Dedicated

/-- Behind the `|` of every failing segment there is no further `|`, and no operator. The segments
are those behind one with a number. -/
def Harmless (failing : ℕ → Bool) : ℕ → List Segment → Prop
  | _, [] => True
  | stage, next :: rest =>
    (failing stage = true → ∀ word ∈ pipelineWords next rest, Passed word) ∧
      Harmless failing (stage + 1) rest

/-! ## Processes behind their redirections -/

section

variable (calls : List (ℕ × Word)) (next : Process)

/-- Redirections start nothing. -/
@[simp]
theorem starts_redirecting : (redirecting calls next).starts = next.starts := by
  induction calls with
  | nil => rfl
  | cons call calls ih => exact ih

/-- Redirections fork nothing. -/
@[simp]
theorem dedicated_redirecting : (redirecting calls next).Dedicated ↔ next.Dedicated := by
  induction calls with
  | nil => rfl
  | cons call calls ih => exact ih

end

/-- The last call of `execvp` starts one command at most, and for one segment. -/
theorem execvp_exit (fails : Attempt → Bool) {cmd : Attempt} (some_ : cmd.argv ≠ []) :
    (execvp fails cmd .exit).Loyal cmd.stage ∧ (execvp fails cmd .exit).Dedicated ∧
      ((execvp fails cmd .exit).starts = [] ∨ (execvp fails cmd .exit).starts = [cmd]) := by
  rw [execvp, if_neg some_]
  split_ifs
  · exact ⟨⟨rfl, trivial⟩, trivial, Or.inl rfl⟩
  · exact ⟨rfl, trivial, Or.inr rfl⟩

/-! ## Harmless failures -/

/-- What holds of a child from the start of a segment on: the commands of this segment and of later
ones are started, each once at most, and processes stay with their segments. -/
structure Orderly (stage : ℕ) (p : Process) : Prop extends p.RunsOnce where
  /-- No command of an earlier segment is started. -/
  later : ∀ attempt ∈ p.starts, stage ≤ attempt.stage

/-- Redirections in front make no difference. -/
theorem Orderly.redirecting {stage : ℕ} {p : Process} (orderly : Orderly stage p)
    (calls : List (ℕ × Word)) : Orderly stage (redirecting calls p) := by
  constructor
  · constructor
    · rw [starts_redirecting]
      exact orderly.once
    · exact (dedicated_redirecting calls p).mpr orderly.dedicated
  · rw [starts_redirecting]
    exact orderly.later

/-- One command at most is started once at most, and no other is. -/
theorem single_start {p : Process} {attempt : Attempt}
    (starts : p.starts = [] ∨ p.starts = [attempt]) :
    (p.starts.map Attempt.stage).Nodup ∧ ∀ other ∈ p.starts, other = attempt := by
  cases starts with
  | inl none_ =>
    rw [none_]
    exact ⟨List.nodup_nil, nofun⟩
  | inr one =>
    rw [one]
    exact ⟨List.nodup_singleton _, fun other => List.mem_singleton.mp⟩

/-- The last segment. -/
theorem Orderly.last (fails : Attempt → Bool) {cmd : Attempt} (some_ : cmd.argv ≠ [])
    (args : List Arg) : Orderly cmd.stage (.free args (execvp fails cmd .exit)) := by
  obtain ⟨-, dedicated, starts⟩ := execvp_exit fails some_
  obtain ⟨once, only⟩ := single_start starts
  constructor
  · exact ⟨once, dedicated⟩
  · intro attempt inside
    rw [only attempt inside]

/-- A segment in front of others: its process starts its command once at most. -/
theorem Orderly.next {stage : ℕ} {child next : Process} (loyal : child.Loyal stage)
    (dedicated : child.Dedicated) {attempt : Attempt} (own : attempt.stage = stage)
    (starts : child.starts = [] ∨ child.starts = [attempt]) (orderly : Orderly (stage + 1) next) :
    Orderly stage (.fork stage child next) := by
  obtain ⟨once, only⟩ := single_start starts
  constructor
  · constructor
    · change ((child.starts ++ next.starts).map Attempt.stage).Nodup
      rw [List.map_append, List.nodup_append']
      constructor
      · exact once
      · constructor
        · exact orderly.once
        · intro number before behind
          obtain ⟨other, inside, rfl⟩ := List.mem_map.mp before
          obtain ⟨later, inside', same⟩ := List.mem_map.mp behind
          have bound := orderly.later later inside'
          rw [same, only other inside, own] at bound
          exact absurd bound (Nat.not_succ_le_self stage)
    · exact ⟨loyal, dedicated, orderly.dedicated⟩
  · intro other inside
    cases List.mem_append.mp inside with
    | inl before =>
      rw [only other before]
      exact own.ge
    | inr behind => exact (Nat.le_succ stage).trans (orderly.later other behind)

section

variable (failing : ℕ → Bool) (lineFails : Bool)

/-- The process of a segment that fails in front of words that are all passed over, or does not
fail: it stays with the segment. -/
theorem forked_harmless {stage : ℕ} {front : List Arg} (some_ : front ≠ [])
    (own : stageOf front = stage) {behind : List Word}
    (harmless : failing stage = true → ∀ word ∈ behind, Passed word) {cmd : Attempt}
    (cmdSome : cmd.argv ≠ []) (cmdOwn : cmd.stage = stage) :
    let fails := stageFails failing lineFails
    let child := execvp fails (.words front)
      (scan fails (front ++ ⟨stage, pipeWord⟩ :: number (stage + 1) behind) (front.length + 1) cmd)
    child.Loyal stage ∧ child.Dedicated ∧
      ∃ attempt : Attempt, attempt.stage = stage ∧
        (child.starts = [] ∨ child.starts = [attempt]) := by
  intro fails child
  have argv : (Attempt.words front).argv ≠ [] := fun empty => some_ (List.map_eq_nil_iff.mp empty)
  have called : child = if failing (stageOf front) then _ else .started (.words front) :=
    if_neg argv
  rw [own] at called
  by_cases fail : failing stage = true
  · have noPipe : pipeWord ∉ behind := fun inside => (harmless fail pipeWord inside).2 rfl
    have passed := scan_passed fails cmd (stage + 1) [] (front ++ [⟨stage, pipeWord⟩])
      (harmless fail)
    have ran := passed.trans (scan_end fails cmd _ (by simp; omega))
    rw [List.append_nil, List.append_assoc, List.length_append, ← number_tag noPipe] at ran
    obtain ⟨loyal, dedicated, starts⟩ := execvp_exit fails cmdSome
    change scan fails (front ++ ⟨stage, pipeWord⟩ :: number (stage + 1) behind) (front.length + 1)
      cmd = _ at ran
    rw [called, if_pos fail, ran]
    exact ⟨⟨own, cmdOwn ▸ loyal⟩, dedicated, cmd, cmdOwn, starts⟩
  · rw [called, if_neg fail]
    exact ⟨own, trivial, .words front, own, Or.inr rfl⟩

/-- Harmless failures leave a pipeline in order. -/
theorem orderly_scan {stage : ℕ} (isFirst : Bool) (seg : Segment) (rest : List Segment)
    (harmless : Harmless failing stage rest) (cmd : Attempt) (some_ : cmd.argv ≠ [])
    (own : cmd.stage = stage) :
    Orderly stage (scan (stageFails failing lineFails) (number stage (pipelineWords seg rest))
      (startIndex isFirst) cmd) := by
  induction rest generalizing stage isFirst seg cmd with
  | nil =>
    rw [pipelineWords, scan_last, ← own]
    exact (Orderly.last _ some_ _).redirecting _
  | cons next rest ih =>
    let front := tag stage (leftWords isFirst seg.items)
    let behind := number (stage + 1) (pipelineWords next rest)
    have belongs : stageOf front = stage := stageOf_leftWords isFirst seg stage
    have frontSome : front ≠ [] := by
      obtain ⟨head, words, shape, -⟩ := leftWords_cons isFirst seg
      intro empty
      rw [show front = tag stage (head :: words) from congrArg _ shape] at empty
      cases empty
    obtain ⟨word, args, begins⟩ := number_head (stage + 1) next rest
    have behindSome : (Attempt.words behind).argv ≠ [] := by
      intro empty
      rw [show behind = _ from begins] at empty
      cases empty
    have behindOwn : (Attempt.words behind).stage = stage + 1 := congrArg stageOf begins
    obtain ⟨loyal, dedicated, attempt, ofStage, starts⟩ :=
      forked_harmless failing lineFails frontSome belongs harmless.1 some_ own
    rw [pipelineWords, scan_next]
    apply Orderly.redirecting
    exact Orderly.next loyal dedicated ofStage starts
      (ih false next harmless.2 _ behindSome behindOwn)

end

/-! ## Harmful failures -/

/-- A process that scans words of later segments, and is to execute words of them, does not stay
with its own segment. -/
theorem scan_disloyal (fails : Attempt → Bool) (args : List Arg) (j : ℕ) (cmd : Attempt)
    {stage : ℕ} (later : ∀ arg ∈ args, stage < arg.stage) (passed : 0 < j)
    (other : cmd.argv = [] ∨ cmd.stage ≠ stage) : ¬ (scan fails args j cmd).Loyal stage := by
  fun_induction scan fails args j cmd with
  | case1 args j cmd inside op stands behind ih =>
    apply ih
    · exact forall_erased later j
    · exact Nat.one_pos
    · exact other
  | case2 => exact id
  | case3 args j cmd inside =>
    intro loyal
    cases args with
    | nil => exact absurd inside (Nat.not_lt_zero j)
    | cons arg args =>
      have front : stageOf ((arg :: args).take j) = arg.stage := by
        rw [← Nat.succ_pred passed.ne', List.take_succ_cons]
        rfl
      have bound := later arg List.mem_cons_self
      rw [← front, loyal.1] at bound
      exact lt_irrefl stage bound
  | case4 args j cmd inside none_ plain ih => exact ih later (Nat.succ_pos j) other
  | case5 args j cmd =>
    change ¬ (execvp fails cmd .exit).Loyal stage
    unfold execvp
    split_ifs with empty fail
    · exact id
    · exact fun loyal => other.resolve_left empty loyal.1
    · exact fun loyal => other.resolve_left empty loyal

/-- Words of later segments are not those of the own one. -/
theorem words_other {stage : ℕ} {args : List Arg} (later : ∀ arg ∈ args, stage < arg.stage) :
    (Attempt.words args).argv = [] ∨ (Attempt.words args).stage ≠ stage := by
  cases args with
  | nil => exact Or.inl rfl
  | cons arg args => exact Or.inr (later arg List.mem_cons_self).ne'

/-- The first word at which the loop does something. -/
theorem exists_first_stop {behind : List Arg} (harmful : ∃ arg ∈ behind, ¬ Passed arg.text) :
    ∃ before arg rest, behind = before ++ arg :: rest ∧
      (∀ other ∈ before, Passed other.text) ∧ ¬ Passed arg.text := by
  obtain ⟨arg, inside, stops⟩ := harmful
  cases found : behind.find? fun arg => decide (¬ Passed arg.text) with
  | none => exact absurd (decide_eq_true stops) (List.find?_eq_none.mp found arg inside)
  | some first =>
    obtain ⟨stops, before, rest, split, passed⟩ := List.find?_eq_some_iff_append.mp found
    refine ⟨before, first, rest, split, fun other inside => ?_, of_decide_eq_true stops⟩
    have passed := passed other inside
    rw [Bool.not_eq_true', decide_eq_false_iff_not, not_not] at passed
    exact passed

/-- A process that forks another one for words of later segments does not stay with its own one. -/
theorem pipe_disloyal (fails : Attempt → Bool) (cmd : Attempt) {stage own : ℕ}
    {front args : List Arg} (later : ∀ arg ∈ args, stage < arg.stage) :
    ¬ (scan fails (front ++ ⟨own, pipeWord⟩ :: args) front.length cmd).Loyal stage := by
  rw [scan_pipe]
  intro loyal
  exact scan_disloyal fails args 1 _ later Nat.one_pos (words_other later) loyal.2

/-- A process sent back to its second word comes to the `|` of its own segment again. -/
theorem scan_sent_back (fails : Attempt → Bool) (cmd : Attempt) {stage : ℕ} {front : List Arg}
    (some_ : front ≠ []) (again : ∀ arg ∈ front.tail, Passed arg.text) {args : List Arg}
    (later : ∀ arg ∈ args, stage < arg.stage) :
    ¬ (scan fails (front ++ ⟨stage, pipeWord⟩ :: args) 1 cmd).Loyal stage := by
  obtain ⟨head, words, rfl⟩ := List.exists_cons_of_ne_nil some_
  have back := scan_words fails [head] (⟨stage, pipeWord⟩ :: args) cmd words again
  rw [List.length_singleton, Nat.add_comm] at back
  have shape : [head] ++ (words ++ Arg.mk stage pipeWord :: args) =
      head :: words ++ ⟨stage, pipeWord⟩ :: args := rfl
  rw [shape] at back
  rw [back]
  exact pipe_disloyal fails cmd later

/-- A process that failed in front of an operator or a further `|` leaves its segment. -/
theorem scan_harmful (fails : Attempt → Bool) (cmd : Attempt) {stage : ℕ} {front : List Arg}
    (some_ : front ≠ []) (again : ∀ arg ∈ front.tail, Passed arg.text) {behind : List Arg}
    (later : ∀ arg ∈ behind, stage < arg.stage) (harmful : ∃ arg ∈ behind, ¬ Passed arg.text) :
    ¬ (scan fails (front ++ ⟨stage, pipeWord⟩ :: behind) (front.length + 1) cmd).Loyal stage := by
  obtain ⟨before, arg, rest, rfl, passed, stops⟩ := exists_first_stop harmful
  have reached := scan_words fails (front ++ [⟨stage, pipeWord⟩]) (arg :: rest) cmd before passed
  have shape (args : List Arg) : front ++ [Arg.mk stage pipeWord] ++ (before ++ args) =
      front ++ ⟨stage, pipeWord⟩ :: before ++ args := by simp
  have place : (front ++ [Arg.mk stage pipeWord]).length + before.length =
      (front ++ ⟨stage, pipeWord⟩ :: before).length := by simp; omega
  rw [shape, place, List.length_append, List.length_singleton] at reached
  rw [← List.cons_append, ← List.append_assoc, reached]
  obtain ⟨number, text⟩ := arg
  cases stands : operator text with
  | none =>
    have pipe : text = pipeWord := by
      by_contra solid
      exact stops ⟨stands, solid⟩
    rw [pipe]
    apply pipe_disloyal
    exact fun other inside => later other (List.mem_append_right _ (.tail _ inside))
  | some op =>
    rw [operator_eq_some stands]
    cases rest with
    | nil =>
      rw [scan_missing]
      exact id
    | cons file rest =>
      rw [scan_operator, List.append_assoc, List.cons_append]
      apply scan_sent_back fails cmd some_ again
      intro other inside
      apply later
      cases List.mem_append.mp inside with
      | inl inside => exact List.mem_append_left _ inside
      | inr inside => exact List.mem_append_right _ (.tail _ (.tail _ inside))

section

variable (failing : ℕ → Bool) (lineFails : Bool)

/-- Where processes stay with their segments, the failures are harmless. -/
theorem Process.Dedicated.harmless (stage : ℕ) (isFirst : Bool) (seg : Segment)
    (rest : List Segment) {cmd : Attempt}
    (dedicated : (scan (stageFails failing lineFails) (number stage (pipelineWords seg rest))
      (startIndex isFirst) cmd).Dedicated) : Harmless failing stage rest := by
  induction rest generalizing stage isFirst seg cmd with
  | nil => trivial
  | cons next rest ih =>
    rw [pipelineWords, scan_next, dedicated_redirecting] at dedicated
    apply And.intro _ (ih _ false next dedicated.2.2)
    intro fail word inside
    by_contra stops
    obtain ⟨head, words, shape, again⟩ := leftWords_cons isFirst seg
    have loyal := dedicated.1
    have failed : stageFails failing lineFails (.words (tag stage (head :: words))) = true := fail
    have argv : (Attempt.words (tag stage (head :: words))).argv ≠ [] := List.cons_ne_nil _ _
    rw [shape, execvp, if_neg argv, if_pos failed] at loyal
    apply scan_harmful _ _ (List.cons_ne_nil _ _) _ (fun arg => number_stage) _ loyal.2
    · intro arg among
      obtain ⟨other, member, rfl⟩ := List.mem_map.mp among
      exact again other member
    · rw [← number_text (stage + 1) (pipelineWords next rest)] at inside
      obtain ⟨arg, among, rfl⟩ := List.mem_map.mp inside
      exact ⟨arg, among, stops⟩

end

/-- No failed stage runs the pipeline again exactly when behind the `|` of every failing segment
there is neither a further `|` nor an operator. -/
theorem runsOnce_iff (failing : ℕ → Bool) (lineFails : Bool) (line : Bytes) (first : Segment)
    (rest : List Segment) (segments : splitLine (cString line) = pipelineWords first rest)
    {p : Process} (forked : forkChild (stageFails failing lineFails) line = some p) :
    p.RunsOnce ↔ Harmless failing 0 rest := by
  obtain ⟨cmd, -, some_, rfl⟩ := forkChild_some forked
  unfold child
  rw [segments]
  constructor
  · intro once
    exact once.dedicated.harmless failing lineFails 0 true first rest
  · intro harmless
    have orderly := orderly_scan failing lineFails true first rest harmless
      (.line cmd.argv) some_ rfl
    exact orderly.toRunsOnce

/-- A segment that is one word. -/
def wordSegment (kept : PlainWord) : Segment where
  items := [.word kept]
  files := by simp [Item.HasFile]
  command := List.cons_ne_nil _ _

/-- The line `a | b`, no segment of which fails. -/
theorem runsOnce_iff_pair :
    (child (stageFails (fun _ => false) false) [bytes "a", pipeWord, bytes "b"]
      [bytes "a", pipeWord, bytes "b"]).RunsOnce ↔
        Harmless (fun _ => false) 0 [wordSegment ⟨bytes "b", by decide, by decide⟩] :=
  runsOnce_iff (fun _ => false) false (bytes "a | b")
    (wordSegment ⟨bytes "a", by decide, by decide⟩)
    [wordSegment ⟨bytes "b", by decide, by decide⟩] (by decide) rfl

/-- The line `bad | b | c`, whose first segment fails: its process forks for the second one. -/
theorem not_runsOnce_first : ∃ p,
    forkChild (stageFails (fun stage => stage == 0) true) (bytes "bad | b | c") = some p ∧
      ¬ p.RunsOnce := by
  let segs : List Segment := [wordSegment ⟨bytes "b", by decide, by decide⟩,
    wordSegment ⟨bytes "c", by decide, by decide⟩]
  refine ⟨child _ [bytes "bad", pipeWord, bytes "b", pipeWord, bytes "c"]
    [bytes "bad", pipeWord, bytes "b", pipeWord, bytes "c"], rfl, fun once => ?_⟩
  have harmless := Process.Dedicated.harmless (fun stage => stage == 0) true 0 true
    (wordSegment ⟨bytes "bad", by decide, by decide⟩) segs once.dedicated
  exact absurd (harmless.1 rfl pipeWord (by decide)).2 (by decide)

end TinyTools.Shell
