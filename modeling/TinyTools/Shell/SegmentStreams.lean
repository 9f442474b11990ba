import TinyTools.Shell.Descriptors

/-!
# The streams of the segments

Where every command starts, the descriptors of the command of a segment are known from the line: its
input is the pipe before it or the file that the segment redirects it to, its output the pipe behind
it, and the errors of a segment go where the last redirection up to it has sent them. A redirection
of the output has no effect in front of a `|`.
-/

namespace TinyTools.Shell

open TinyTools.Lib

/-- The last of some calls of `redirect` that replaces a stream. -/
def lastOpened (opens : ℕ → Word → Bool) (fd : ℕ) (calls : List (ℕ × Word)) : Option OpenFile :=
  ((calls.filter fun call => streamOf call.1 = fd ∧ opens call.1 call.2).getLast?).map
    fun call => .opened call.1 call.2

/-- The calls of `redirect` for the segments of a pipeline. -/
def segmentCalls (first : Segment) (rest : List Segment) : List (List (ℕ × Word)) :=
  leftCalls true first.items :: rest.map fun seg => leftCalls false seg.items

/-- What the descriptors of the command of a segment refer to, given the calls of `redirect` for all
segments: an earlier redirection of the input is gone, one of the output has no effect until the
last segment, one of the errors goes on; and one end of every earlier pipe stays open. -/
def stageSlot (opens : ℕ → Word → Bool) (segments : List (List (ℕ × Word))) (stage : ℕ) :
    ℕ → Option OpenFile
  | 0 => (lastOpened opens 0 (segments.getD stage [])).or
      (some (if stage = 0 then .given 0 else .readEnd (stage - 1)))
  | 1 =>
    if stage + 1 < segments.length then some (.writeEnd stage)
    else (lastOpened opens 1 segments.flatten).or (some (.given 1))
  | 2 => (lastOpened opens 2 (segments.take (stage + 1)).flatten).or (some (.given 2))
  | fd + 3 =>
    if fd < stage then some (.readEnd fd)
    else if fd = stage + 1 ∧ stage + 1 < segments.length then some (.writeEnd stage)
    else none

/-! ## One segment after another -/

section

variable (opens : ℕ → Word → Bool)

/-- The later calls come first. -/
theorem lastOpened_append (fd : ℕ) (before behind : List (ℕ × Word)) :
    lastOpened opens fd (before ++ behind) =
      (lastOpened opens fd behind).or (lastOpened opens fd before) := by
  unfold lastOpened
  rw [List.filter_append, List.getLast?_append, Option.map_or]

/-- Several redirections leave each stream with the last file that was opened for it. -/
theorem redirects_slot {t : Descriptors OpenFile} (full : t.FullBelow 3)
    (calls : List (ℕ × Word)) :
    (calls.foldl (fun t call => redirect opens t call.1 call.2) t).FullBelow 3 ∧
      ∀ fd, (calls.foldl (fun t call => redirect opens t call.1 call.2) t).slot fd =
        (lastOpened opens fd calls).or (t.slot fd) := by
  induction calls generalizing t with
  | nil => exact ⟨full, fun _ => rfl⟩
  | cons call calls ih =>
    obtain ⟨after, slots⟩ := ih (redirect_full full call.1 call.2)
    refine ⟨after, fun fd => ?_⟩
    have one : (lastOpened opens fd [call]).or (t.slot fd) =
        (redirect opens t call.1 call.2).slot fd := by
      rw [redirect_slot full]
      unfold lastOpened
      split_ifs with both
      · rw [List.filter_cons_of_pos (by simpa using both)]
        rfl
      · rw [List.filter_cons_of_neg (by simpa using both)]
        rfl
    have split : lastOpened opens fd (call :: calls) =
        (lastOpened opens fd calls).or (lastOpened opens fd [call]) :=
      lastOpened_append opens fd [call] calls
    rw [List.foldl_cons, slots, ← one, split, Option.or_assoc]

/-- No redirection is of another descriptor than the three streams. -/
theorem lastOpened_of_le {fd : ℕ} (other : 3 ≤ fd) (calls : List (ℕ × Word)) :
    lastOpened opens fd calls = none := by
  unfold lastOpened
  rw [List.filter_eq_nil_iff.mpr]
  · rfl
  · intro call _ both
    have same : streamOf call.1 = fd := (by simpa using both : _ ∧ _).1
    have stream := streamOf_lt call.1
    omega

/-- Redirections come first. -/
theorem execCalls_redirecting (calls : List (ℕ × Word)) (next : Process)
    (waiting : List (Descriptors OpenFile)) (t : Descriptors OpenFile) (pipes : ℕ) :
    (redirecting calls next).execCalls opens waiting t pipes =
      next.execCalls opens waiting (calls.foldl (fun t call => redirect opens t call.1 call.2) t)
        pipes := by
  induction calls generalizing t with
  | nil => rfl
  | cons call calls ih => exact ih _

/-- What the descriptors refer to when the scan comes to a segment, given the calls of `redirect`
for those in front of it. -/
def startSlot (before : List (List (ℕ × Word))) : ℕ → Option OpenFile
  | 0 => some (if before.length = 0 then .given 0 else .readEnd (before.length - 1))
  | 1 => (lastOpened opens 1 before.flatten).or (some (.given 1))
  | 2 => (lastOpened opens 2 before.flatten).or (some (.given 2))
  | fd + 3 => if fd < before.length then some (.readEnd fd) else none

variable {opens} {before : List (List (ℕ × Word))} {t : Descriptors OpenFile}

/-- The streams and the ends of the earlier pipes are in use. -/
theorem startSlot_full (at_ : ∀ fd, t.slot fd = startSlot opens before fd) :
    t.FullBelow (before.length + 3) := by
  intro fd below
  rw [at_]
  match fd with
  | 0 => exact Option.some_ne_none _
  | 1 =>
    change (lastOpened opens 1 before.flatten).or _ ≠ none
    simp
  | 2 =>
    change (lastOpened opens 2 before.flatten).or _ ≠ none
    simp
  | fd + 3 =>
    change (if fd < before.length then some (OpenFile.readEnd fd) else none) ≠ none
    rw [if_pos (by omega)]
    exact Option.some_ne_none _

variable {calls : List (ℕ × Word)}

/-- The redirections of the segment are applied. -/
theorem redirected_slot (at_ : ∀ fd, t.slot fd = startSlot opens before fd)
    (calls : List (ℕ × Word)) :
    let t' := calls.foldl (fun t call => redirect opens t call.1 call.2) t
    t'.FullBelow (before.length + 3) ∧
      ∀ fd, t'.slot fd = (lastOpened opens fd calls).or (startSlot opens before fd) := by
  have full := startSlot_full at_
  obtain ⟨-, slots⟩ := redirects_slot opens (fun fd below => full fd (by omega)) calls
  constructor
  · intro fd below free
    rw [slots, Option.or_eq_none_iff] at free
    exact full fd below free.2
  · intro fd
    rw [slots, at_]

/-- The last segment: the child itself executes the command. -/
theorem redirected_last (at_ : ∀ fd, t.slot fd = startSlot opens before fd)
    (calls : List (ℕ × Word)) :
    (calls.foldl (fun t call => redirect opens t call.1 call.2) t).slot =
      stageSlot opens (before ++ [calls]) before.length := by
  obtain ⟨-, slots⟩ := redirected_slot at_ calls
  have length : (before ++ [calls]).length = before.length + 1 := by simp
  have own : (before ++ [calls]).getD before.length [] = calls := by simp
  have flat : (before ++ [calls]).flatten = before.flatten ++ calls := by simp
  have whole : (before ++ [calls]).take (before.length + 1) = before ++ [calls] := by simp
  funext fd
  rw [slots]
  match fd with
  | 0 =>
    simp only [stageSlot, startSlot]
    rw [own]
  | 1 =>
    simp only [stageSlot, startSlot]
    rw [length, if_neg (lt_irrefl _), flat, lastOpened_append, Option.or_assoc]
  | 2 =>
    simp only [stageSlot, startSlot]
    rw [whole, flat, lastOpened_append, Option.or_assoc]
  | fd + 3 =>
    rw [lastOpened_of_le opens (by omega), Option.none_or]
    simp only [stageSlot, startSlot]
    rw [length]
    split_ifs <;> first | rfl | omega

/-- A segment in front of others: the pipe, the process that is forked and the one that goes on. -/
theorem redirected_next (at_ : ∀ fd, t.slot fd = startSlot opens before fd)
    (calls : List (ℕ × Word)) (next : List (ℕ × Word)) (after : List (List (ℕ × Word))) :
    let t' := calls.foldl (fun t call => redirect opens t call.1 call.2) t
    let made := t'.pipe (.readEnd before.length) (.writeEnd before.length)
    (pipeChild made.2 made.1).slot =
        stageSlot opens (before ++ calls :: next :: after) before.length ∧
      ∀ fd, (pipeParent made.2 made.1).slot fd = startSlot opens (before ++ [calls]) fd := by
  intro t' made
  obtain ⟨full, slots⟩ := redirected_slot at_ calls
  have free {fd : ℕ} (far : before.length + 3 ≤ fd) : t'.slot fd = none := by
    have high : fd = fd - 3 + 3 := by omega
    rw [slots, lastOpened_of_le opens (by omega), Option.none_or, high]
    exact if_neg (by omega)
  have ends : made.1 = (before.length + 3, before.length + 3 + 1) :=
    Descriptors.pipe_fst t' _ _ full (free le_rfl) (free (Nat.le_succ _))
  have shape : made = ((before.length + 3, before.length + 4), made.2) := Prod.ext ends rfl
  have piped := pipe_piped (fun fd below => full fd (by omega)) before.length shape
  have segments : before ++ calls :: next :: after = (before ++ [calls]) ++ next :: after := by simp
  have length : (before ++ [calls]).length = before.length + 1 := by simp
  have inner : before.length + 1 < (before ++ calls :: next :: after).length := by
    rw [segments, List.length_append, length, List.length_cons]
    omega
  have own : (before ++ calls :: next :: after).getD before.length [] = calls := by simp
  have flat : (before ++ [calls]).flatten = before.flatten ++ calls := by simp
  have whole : (before ++ calls :: next :: after).take (before.length + 1) = before ++ [calls] := by
    rw [segments, ← length]
    exact List.take_left
  rw [shape]
  constructor
  · funext fd
    rw [piped.child, slots]
    match fd with
    | 0 =>
      have other : ¬ (0 = 1 ∨ 0 = before.length + 4) := by omega
      rw [if_neg other]
      simp only [stageSlot, startSlot]
      rw [own]
    | 1 =>
      rw [if_pos (Or.inl rfl)]
      exact (if_pos inner).symm
    | 2 =>
      have other : ¬ (2 = 1 ∨ 2 = before.length + 4) := by omega
      rw [if_neg other]
      simp only [stageSlot, startSlot]
      rw [whole, flat, lastOpened_append, Option.or_assoc]
    | fd + 3 =>
      rw [lastOpened_of_le opens (by omega), Option.none_or]
      simp only [stageSlot, startSlot]
      split_ifs <;> first | rfl | omega
  · intro fd
    rw [piped.parent, slots]
    match fd with
    | 0 =>
      rw [if_pos (Or.inl rfl)]
      simp only [startSlot]
      rw [length, if_neg (Nat.succ_ne_zero _), Nat.add_sub_cancel]
    | 1 =>
      have other : ¬ (1 = 0 ∨ 1 = before.length + 3) := by omega
      rw [if_neg other]
      simp only [startSlot]
      rw [flat, lastOpened_append, Option.or_assoc]
    | 2 =>
      have other : ¬ (2 = 0 ∨ 2 = before.length + 3) := by omega
      rw [if_neg other]
      simp only [startSlot]
      rw [flat, lastOpened_append, Option.or_assoc]
    | fd + 3 =>
      rw [lastOpened_of_le opens (by omega), Option.none_or]
      simp only [startSlot]
      rw [length]
      by_cases newest : fd = before.length
      · have read : fd + 3 = 0 ∨ fd + 3 = before.length + 3 := by omega
        rw [if_pos read, newest, if_pos (Nat.lt_succ_self _)]
      · have other : ¬ (fd + 3 = 0 ∨ fd + 3 = before.length + 3) := by omega
        rw [if_neg other]
        split_ifs <;> first | rfl | omega

/-- A command that can be executed is. -/
theorem execvp_started {fails : Attempt → Bool} {attempt : Attempt} (some_ : attempt.argv ≠ [])
    (works : fails attempt = false) (next : Process) :
    execvp fails attempt next = .started attempt := by
  unfold execvp
  rw [if_neg some_, works, if_neg Bool.false_ne_true]

/-- What the loop leaves of a segment is a command. -/
theorem leftWords_argv (isFirst : Bool) (seg : Segment) (stage : ℕ) :
    (Attempt.words (tag stage (leftWords isFirst seg.items))).argv ≠ [] := by
  obtain ⟨head, words, shape, -⟩ := leftWords_cons isFirst seg
  intro empty
  rw [shape] at empty
  cases empty

/-- From a segment on, each command is executed once, with its descriptors. -/
theorem execCalls_pipeline (waiting : List (Descriptors OpenFile))
    (at_ : ∀ fd, t.slot fd = startSlot opens before fd) (isFirst : Bool) (seg : Segment)
    (rest : List Segment) (cmd : Attempt) (some_ : cmd.argv ≠ [])
    (own : cmd.stage = before.length) :
    (((scan (fun _ => false) (number before.length (pipelineWords seg rest)) (startIndex isFirst)
      cmd).execCalls opens waiting t before.length).1.map fun e => (e.attempt.stage, e.own.slot)) =
        (List.range (rest.length + 1)).map fun i => (before.length + i,
          stageSlot opens (before ++ leftCalls isFirst seg.items ::
            rest.map fun seg => leftCalls false seg.items) (before.length + i)) := by
  induction rest generalizing before t isFirst seg cmd with
  | nil =>
    rw [pipelineWords, scan_last, execCalls_redirecting, Process.execCalls,
      execvp_started some_ rfl]
    have slots := redirected_last at_ (leftCalls isFirst seg.items)
    change [(cmd.stage, _)] = [(before.length, _)]
    rw [own]
    exact congrArg (fun slot => [(before.length, slot)]) slots
  | cons next rest ih =>
    obtain ⟨word, args, begins⟩ := number_head (before.length + 1) next rest
    have behindSome : (Attempt.words (number (before.length + 1) (pipelineWords next rest))).argv ≠
        [] := by
      intro empty
      rw [begins] at empty
      cases empty
    have behindOwn : (Attempt.words (number (before.length + 1) (pipelineWords next rest))).stage =
        (before ++ [leftCalls isFirst seg.items]).length := by
      rw [List.length_append, List.length_singleton]
      exact congrArg stageOf begins
    obtain ⟨forked, goes⟩ := redirected_next at_ (leftCalls isFirst seg.items)
      (leftCalls false next.items) (rest.map fun seg => leftCalls false seg.items)
    have later := ih goes false next _ behindSome behindOwn
    rw [List.length_append, List.length_singleton, List.append_assoc] at later
    rw [pipelineWords, scan_next, execCalls_redirecting,
      execvp_started (leftWords_argv isFirst seg before.length) rfl, List.length_cons,
      List.range_succ_eq_map, List.map_cons, List.map_map]
    have first : (Attempt.words (tag before.length (leftWords isFirst seg.items))).stage =
        before.length := stageOf_leftWords isFirst seg before.length
    apply congrArg₂ List.cons
    · exact Prod.ext first forked
    · refine later.trans (List.map_congr_left fun i _ => ?_)
      have place : before.length + 1 + i = before.length + (i + 1) := by omega
      rw [place]
      rfl

end

/-- When every command can be executed, the segments of a pipeline are executed in order, each once;
its input is the last file that its own redirections open, or the pipe of the segment in front of
it; its output is the pipe behind it, whatever is redirected, and for the last segment the last file
that any redirection of the line opens; its errors go to the last file that its redirections and
the earlier ones open. Behind each pipe one descriptor more is open for all later commands. -/
theorem pipeline_descriptors (opens : ℕ → Word → Bool) (line : Bytes) (first : Segment)
    (rest : List Segment) (segments : splitLine (cString line) = pipelineWords first rest)
    {p : Process} (forked : forkChild (fun _ => false) line = some p) :
    ((p.childExecs opens streams).map fun e => (e.attempt.stage, e.own.slot)) =
      (List.range (rest.length + 1)).map fun stage =>
        (stage, stageSlot opens (segmentCalls first rest) stage) := by
  obtain ⟨cmd, -, some_, rfl⟩ := forkChild_some forked
  have at_ (fd : ℕ) : streams.slot fd = startSlot opens [] fd := by
    match fd with
    | 0 => rfl
    | 1 => rfl
    | 2 => rfl
    | fd + 3 =>
      change (if fd + 3 < 3 then some (OpenFile.given (fd + 3)) else none) =
        if fd < 0 then some (OpenFile.readEnd fd) else none
      rw [if_neg (by omega), if_neg (Nat.not_lt_zero fd)]
  have ran := execCalls_pipeline [streams] at_ true first rest (.line cmd.argv) some_ rfl
  simp only [List.length_nil, Nat.zero_add, List.nil_append] at ran
  rw [segments]
  exact ran

/-- The segment `sort > log`. -/
def redirectedSegment : Segment where
  items := [.word ⟨bytes "sort", by decide, by decide⟩,
    .redirection .output (bytes "log") (by decide)]
  files := by
    intro item among
    rcases List.mem_cons.mp among with rfl | among
    · exact trivial
    · rw [List.mem_singleton.mp among]
      exact (by decide : operator (bytes "log") = none)
  command := List.cons_ne_nil _ _

/-- The line `sort > log | b`: the file is that of the second command. -/
theorem pipeline_descriptors_redirected :
    (((child (fun _ => false) [bytes "sort", bytes ">", bytes "log", pipeWord, bytes "b"]
        [bytes "sort", pipeWord, bytes "b"]).childExecs (fun _ _ => true) streams).map
      fun e => (e.attempt.stage, e.own.slot)) =
        (List.range 2).map fun stage =>
          (stage, stageSlot (fun _ _ => true) (segmentCalls redirectedSegment
            [wordSegment ⟨bytes "b", by decide, by decide⟩]) stage) :=
  pipeline_descriptors _ (bytes "sort > log | b") redirectedSegment
    [wordSegment ⟨bytes "b", by decide, by decide⟩] (by decide) rfl

end TinyTools.Shell
