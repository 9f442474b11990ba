import TinyTools.Shell.Redirections

/-!
# Pipelines

The words of a line with several segments, and how the loop of the child comes from the start of a
segment to the `|` behind it. The first segment is scanned from its first word on, every other one
from its second word: a redirection that a later segment begins with stays among its words.
-/

namespace TinyTools.Shell

open TinyTools.Lib

/-- The file of a redirection is not itself an operator. -/
def Item.HasFile : Item → Prop
  | word _ => True
  | redirection _ file _ => operator file = none

/-- A segment of a pipeline. -/
structure Segment where
  /-- The words of the command, and the redirections. -/
  items : List Item
  /-- Every operator is followed by a word for its file. -/
  files : ∀ item ∈ items, item.HasFile
  /-- There is a command. -/
  command : plainWords items ≠ []

/-- The words of a segment. -/
def Segment.words (seg : Segment) : List Word := itemWords seg.items

/-- The words of a line with a segment and those behind it. -/
def pipelineWords (seg : Segment) : List Segment → List Word
  | [] => seg.words
  | next :: rest => seg.words ++ pipeWord :: pipelineWords next rest

/-- The loop passes over a word: it is no operator and not the `|`. -/
def Passed (word : Word) : Prop := operator word = none ∧ word ≠ pipeWord

instance : DecidablePred Passed := fun word =>
  inferInstanceAs (Decidable (operator word = none ∧ word ≠ pipeWord))

/-- The words that the loop leaves of a segment that it scans from the second word on. -/
def stuckWords : List Item → List Word
  | .redirection op file _ :: items => op.text :: file :: plainWords items
  | items => plainWords items

/-- The calls of `redirect` for a segment that is scanned from the second word on. -/
def stuckCalls : List Item → List (ℕ × Word)
  | .redirection _ _ _ :: items => calls items
  | items => calls items

/-- The words that the loop leaves of a segment, the first or another one. -/
def leftWords : Bool → List Item → List Word
  | true, .redirection _ _ _ :: items => stuckWords items
  | _, items => stuckWords items

/-- The calls of `redirect` for a segment, the first or another one. -/
def leftCalls : Bool → List Item → List (ℕ × Word)
  | true, .redirection op file _ :: items => (op.flag, file) :: stuckCalls items
  | _, items => stuckCalls items

/-- The index from which the words of a segment are scanned. -/
def startIndex (isFirst : Bool) : ℕ := if isFirst then 0 else 1

/-! ## Words and segments -/

/-- The words of a command are passed over. -/
theorem plainWords_passed {items : List Item} {word : Word} (inside : word ∈ plainWords items) :
    Passed word := by
  obtain ⟨item, -, plain⟩ := List.mem_filterMap.mp inside
  cases item with
  | word kept =>
    rw [← Option.some.inj plain]
    exact ⟨kept.notOperator, kept.notPipe⟩
  | redirection => cases plain

/-- A segment has words. -/
theorem Segment.items_ne_nil (seg : Segment) : seg.items ≠ [] := by
  intro empty
  apply seg.command
  rw [empty]
  rfl

/-- Behind a redirection at its front a segment has more. -/
theorem Segment.behind_redirection (seg : Segment) {op : Operator} {file : Word}
    {notPipe : file ≠ pipeWord} {items : List Item}
    (front : seg.items = .redirection op file notPipe :: items) : items ≠ [] := by
  intro empty
  apply seg.command
  rw [front, empty]
  rfl

/-- Behind the words of a segment, the words of the next one are counted. -/
theorem number_append {stage : ℕ} {words : List Word} (noPipe : pipeWord ∉ words)
    (behind : List Word) :
    number stage (words ++ pipeWord :: behind) =
      tag stage words ++ ⟨stage, pipeWord⟩ :: number (stage + 1) behind := by
  induction words with
  | nil => rw [List.nil_append, number, if_pos rfl, tag_nil, List.nil_append]
  | cons word words ih =>
    have other : word ≠ pipeWord := fun same => noPipe (same ▸ List.mem_cons_self)
    rw [List.cons_append, number, if_neg other, ih fun inside => noPipe (.tail _ inside), tag_cons,
      List.cons_append]

/-- No word belongs to a segment in front of the first. -/
theorem number_stage {stage : ℕ} {words : List Word} {arg : Arg}
    (inside : arg ∈ number stage words) : stage ≤ arg.stage := by
  induction words generalizing stage with
  | nil => cases inside
  | cons word words ih =>
    cases inside with
    | head => exact le_rfl
    | tail _ inside =>
      have later := ih inside
      split_ifs at later
      · exact Nat.le_of_succ_le later
      · exact later

/-- A segment is not empty on the line. -/
theorem Segment.words_ne_nil (seg : Segment) : seg.words ≠ [] := by
  unfold words
  cases items : seg.items with
  | nil => exact absurd items seg.items_ne_nil
  | cons item others =>
    rw [itemWords_cons]
    cases item <;> exact List.cons_ne_nil _ _

/-- A pipeline begins with a word of its first segment. -/
theorem number_head (stage : ℕ) (seg : Segment) (rest : List Segment) :
    ∃ word args, number stage (pipelineWords seg rest) = ⟨stage, word⟩ :: args := by
  obtain ⟨word, words, shape⟩ := List.exists_cons_of_ne_nil seg.words_ne_nil
  cases rest with
  | nil =>
    rw [pipelineWords, shape]
    exact ⟨word, _, rfl⟩
  | cons next rest =>
    rw [pipelineWords, shape]
    exact ⟨word, _, rfl⟩

/-! ## From the start of a segment to its end -/

section

variable (fails : Attempt → Bool) (cmd : Attempt) (stage : ℕ) (behind : List Arg)

/-- The loop passes over words of a segment. -/
theorem scan_passed (front : List Arg) {words : List Word} (passed : ∀ word ∈ words, Passed word) :
    scan fails (front ++ (tag stage words ++ behind)) front.length cmd =
      scan fails (front ++ (tag stage words ++ behind)) (front.length + words.length) cmd := by
  have scanned := scan_words fails front behind cmd (tag stage words)
    fun arg inside => by
      obtain ⟨word, among, rfl⟩ := List.mem_map.mp inside
      exact passed word among
  rwa [tag_length] at scanned

/-- From the second word of a segment the loop comes to its end. -/
theorem scan_stuck {items : List Item} (some_ : items ≠ [])
    (files : ∀ item ∈ items, item.HasFile) :
    scan fails (tag stage (itemWords items) ++ behind) 1 cmd =
      redirecting (stuckCalls items)
        (scan fails (tag stage (stuckWords items) ++ behind) (stuckWords items).length cmd) := by
  cases items with
  | nil => exact absurd rfl some_
  | cons item items =>
    cases item with
    | word kept =>
      have ran := scan_items fails cmd stage items ⟨stage, kept.text⟩ []
        (fun _ inside => absurd inside List.not_mem_nil) behind
      rw [List.length_nil, Nat.zero_add, Nat.add_comm 1] at ran
      exact ran
    | redirection op file notPipe =>
      have plain : operator file = none := files (.redirection op file notPipe) List.mem_cons_self
      have first := scan_word fails [⟨stage, op.text⟩] (tag stage (itemWords items) ++ behind) cmd
        ⟨stage, file⟩ plain notPipe
      have ran := scan_items fails cmd stage items ⟨stage, op.text⟩ [⟨stage, file⟩]
        (fun arg inside => by
          rw [List.mem_singleton.mp inside]
          exact ⟨plain, notPipe⟩) behind
      rw [List.length_singleton, Nat.add_comm (1 + 1)] at ran
      exact first.trans ran

/-- From its start the loop comes to the end of a segment. -/
theorem scan_segment (isFirst : Bool) (seg : Segment) :
    scan fails (tag stage seg.words ++ behind) (startIndex isFirst) cmd =
      redirecting (leftCalls isFirst seg.items)
        (scan fails (tag stage (leftWords isFirst seg.items) ++ behind)
          (leftWords isFirst seg.items).length cmd) := by
  have stuck := scan_stuck fails cmd stage behind seg.items_ne_nil seg.files
  cases isFirst with
  | false => exact stuck
  | true =>
    unfold Segment.words
    cases front : seg.items with
    | nil => exact absurd front seg.items_ne_nil
    | cons item items =>
      rw [front] at stuck
      cases item with
      | word kept =>
        have first := scan_word fails [] (tag stage (itemWords items) ++ behind) cmd
          ⟨stage, kept.text⟩ kept.notOperator kept.notPipe
        exact first.trans stuck
      | redirection op file notPipe =>
        have first := scan_operator fails [] (tag stage (itemWords items) ++ behind) cmd
          stage op ⟨stage, file⟩
        have ran := scan_stuck fails cmd stage behind (seg.behind_redirection front)
          fun item inside => seg.files item (front ▸ .tail _ inside)
        exact first.trans (congrArg (Process.redirect op.flag file) ran)

end

/-- The loop leaves words of a segment, and passes over all of them but the first. -/
theorem leftWords_cons (isFirst : Bool) (seg : Segment) :
    ∃ head words, leftWords isFirst seg.items = head :: words ∧ ∀ word ∈ words, Passed word := by
  have stuck {items : List Item} (some_ : items ≠ []) (files : ∀ item ∈ items, item.HasFile) :
      ∃ head words, stuckWords items = head :: words ∧ ∀ word ∈ words, Passed word := by
    cases items with
    | nil => exact absurd rfl some_
    | cons item items =>
      cases item with
      | word kept => exact ⟨kept.text, plainWords items, rfl, fun _ => plainWords_passed⟩
      | redirection op file notPipe =>
        refine ⟨op.text, file :: plainWords items, rfl, fun word inside => ?_⟩
        cases inside with
        | head => exact ⟨files (.redirection op file notPipe) List.mem_cons_self, notPipe⟩
        | tail _ inside => exact plainWords_passed inside
  cases isFirst with
  | false => exact stuck seg.items_ne_nil seg.files
  | true =>
    cases front : seg.items with
    | nil => exact absurd front seg.items_ne_nil
    | cons item items =>
      have files : ∀ other ∈ item :: items, other.HasFile := front ▸ seg.files
      cases item with
      | word kept => exact stuck (List.cons_ne_nil _ _) files
      | redirection op file notPipe =>
        apply stuck
        · exact seg.behind_redirection front
        · exact fun other inside => files other (.tail _ inside)

/-- What the loop leaves of a segment belongs to it. -/
theorem stageOf_leftWords (isFirst : Bool) (seg : Segment) (stage : ℕ) :
    stageOf (tag stage (leftWords isFirst seg.items)) = stage := by
  obtain ⟨head, words, front, -⟩ := leftWords_cons isFirst seg
  rw [front]
  rfl

section

variable (fails : Attempt → Bool) (cmd : Attempt) (stage : ℕ) (isFirst : Bool) (seg : Segment)

/-- The last segment: the loop ends, and `cmd` is executed. -/
theorem scan_last :
    scan fails (number stage seg.words) (startIndex isFirst) cmd =
      redirecting (leftCalls isFirst seg.items)
        (.free (tag stage (leftWords isFirst seg.items)) (execvp fails cmd .exit)) := by
  have ran := scan_segment fails cmd stage [] isFirst seg
  have ended := scan_end fails cmd (tag stage (leftWords isFirst seg.items))
    (tag_length _ _).le
  rw [List.append_nil, List.append_nil, ended] at ran
  have numbered : number stage seg.words = tag stage seg.words :=
    number_tag (itemWords_noPipe seg.items)
  rw [numbered, ran]

/-- Another segment: a process is forked for it, and the loop goes on with the words behind. -/
theorem scan_next (words : List Word) :
    let front := tag stage (leftWords isFirst seg.items)
    let behind := number (stage + 1) words
    scan fails (number stage (seg.words ++ pipeWord :: words)) (startIndex isFirst) cmd =
      redirecting (leftCalls isFirst seg.items)
        (.fork stage
          (execvp fails (.words front)
            (scan fails (front ++ ⟨stage, pipeWord⟩ :: behind) (front.length + 1) cmd))
          (scan fails behind (startIndex false) (.words behind))) := by
  intro front behind
  have ran := scan_segment fails cmd stage (⟨stage, pipeWord⟩ :: behind) isFirst seg
  have piped := scan_pipe fails front behind cmd stage
  rw [show stageOf front = stage from stageOf_leftWords isFirst seg stage] at piped
  have numbered : number stage (seg.words ++ pipeWord :: words) =
      tag stage seg.words ++ ⟨stage, pipeWord⟩ :: behind :=
    number_append (itemWords_noPipe seg.items) words
  rw [← tag_length stage] at ran
  rw [numbered]
  exact ran.trans (congrArg _ piped)

end

end TinyTools.Shell
