import TinyTools.Shell.Commands

/-!
# Argument vectors

A line of one segment is executed as `main` parsed it, a line of several with the words between
blanks. So the first kind goes wrong where the rebuilt line does, or where the child finds a `|`
behind an escaped space; the second with every escaped space, with a blank at the end of the line,
and with every redirection that is not erased: of the last segment all, of another one the first.
-/

namespace TinyTools.Shell

open TinyTools.Lib

/-- The argument vectors with which a process and those it forks call `execvp` first. -/
def Process.execs : Process → List (List Word)
  | redirect _ _ next => next.execs
  | fork _ child next => child.execs ++ next.execs
  | started attempt => [attempt.argv]
  | returned attempt _ => [attempt.argv]
  | free _ next => next.execs
  | exit | fault => []

/-- A part is an operator with its file. -/
def Part.IsRedirection : Part → Prop
  | word _ _ => False
  | redirection _ _ _ _ => True

/-- The first of some parts is a redirection. -/
def BeginsRedirected : List Part → Prop
  | .redirection _ _ _ _ :: _ => True
  | _ => False

/-- The first two of some parts are redirections. -/
def BeginsWithTwo : List Part → Prop
  | .redirection _ _ _ _ :: parts => BeginsRedirected parts
  | _ => False

/-- A command alone on its line is executed rightly. -/
def RightAlone (c : Command) : Prop := NothingHidden c.words ∧ SpaceAtEnd c.words

/-- Commands behind a `|` are executed rightly: none begins with a redirection, and the last one has
no redirection at all. -/
def RightBehind (c : Command) : List Command → Prop
  | [] => ∀ part ∈ c.parts, ¬ part.IsRedirection
  | next :: rest => ¬ BeginsRedirected c.parts ∧ RightBehind next rest

/-- Commands of a line with several segments are executed rightly. -/
structure RightPiped (line : Bytes) (first next : Command) (rest : List Command) : Prop where
  /-- There are no escaped spaces. -/
  unspaced : ∀ c ∈ first :: next :: rest, ∀ word ∈ c.words, word.spaced = []
  /-- There is no blank at the end of the line. -/
  ends : endsBlank line = false
  /-- The first command does not begin with two redirections. -/
  first : ¬ BeginsWithTwo first.parts
  /-- The others are executed rightly behind it. -/
  others : RightBehind next rest

/-- The commands of a line are executed rightly. -/
def Right (line : Bytes) (first : Command) : List Command → Prop
  | [] => RightAlone first
  | next :: rest => RightPiped line first next rest

/-- A word without blanks. -/
def Solid (word : Word) : Prop := ∀ byte ∈ word, isSpace byte = false

/-! ## Words of the calls -/

section

variable (fails : Attempt → Bool)

/-- Redirections execute nothing. -/
@[simp]
theorem execs_redirecting (calls : List (ℕ × Word)) (next : Process) :
    (redirecting calls next).execs = next.execs := by
  induction calls with
  | nil => rfl
  | cons call calls ih => exact ih

/-- A call of `execvp` with words. -/
theorem execs_execvp {attempt : Attempt} (some_ : attempt.argv ≠ []) (next : Process) :
    (execvp fails attempt next).execs = [attempt.argv] := by
  rw [execvp, if_neg some_]
  split_ifs <;> rfl

/-- A call of `execvp` has no other words than its own. -/
theorem mem_execs_execvp {attempt : Attempt} {next : Process} {argv : List Word}
    (inside : argv ∈ (execvp fails attempt next).execs) : argv = attempt.argv := by
  by_cases empty : attempt.argv = []
  · rw [execvp, if_pos empty] at inside
    cases inside
  · rw [execs_execvp fails empty] at inside
    exact List.mem_singleton.mp inside

/-- What holds of all words holds of those in the calls of a process that is forked for some of
them, and in those behind, if it does there. -/
theorem fork_execs {Good : Word → Prop} {args : List Arg} (good : ∀ arg ∈ args, Good arg.text)
    (j stage : ℕ) (child : Process) {next : Process}
    (later : ∀ argv ∈ next.execs, ∀ word ∈ argv, Good word) :
    ∀ argv ∈ (Process.fork stage (execvp fails (.words (args.take j)) child) next).execs,
      ∀ word ∈ argv, Good word := by
  intro argv among word member
  cases List.mem_append.mp among with
  | inl own =>
    rw [mem_execs_execvp fails own] at member
    obtain ⟨arg, taken, rfl⟩ := List.mem_map.mp member
    exact good arg (List.mem_of_mem_take taken)
  | inr behind => exact later argv behind word member

/-- What holds of all words that are scanned, and of those that `cmd` has, holds of the words of all
calls. -/
theorem scan_execs {Good : Word → Prop} (args : List Arg) (j : ℕ) (cmd : Attempt)
    (good : ∀ arg ∈ args, Good arg.text) (goodCmd : ∀ word ∈ cmd.argv, Good word) :
    ∀ argv ∈ (scan fails args j cmd).execs, ∀ word ∈ argv, Good word := by
  fun_induction scan fails args j cmd with
  | case1 args j cmd inside op stands behind ih => exact ih (forall_erased good j) goodCmd
  | case2 =>
    intro argv inside
    cases inside
  | case3 args j cmd inside none_ pipe child next =>
    have later : ∀ arg ∈ args.drop (j + 1), Good arg.text :=
      fun arg among => good arg (List.mem_of_mem_drop among)
    apply fork_execs fails good
    apply next later
    intro word member
    obtain ⟨arg, dropped, rfl⟩ := List.mem_map.mp member
    exact later arg dropped
  | case4 args j cmd inside none_ plain ih => exact ih good goodCmd
  | case5 args j cmd =>
    intro argv among word member
    rw [mem_execs_execvp fails among] at member
    exact goodCmd word member

/-- What holds of all words that are scanned holds of the words of all calls, unless `cmd` is all
that is called. -/
theorem scan_execs_cases {Good : Word → Prop} (args : List Arg) (j : ℕ) (cmd : Attempt)
    (good : ∀ arg ∈ args, Good arg.text) :
    (scan fails args j cmd).execs = [] ∨ (scan fails args j cmd).execs = [cmd.argv] ∨
      ∀ argv ∈ (scan fails args j cmd).execs, ∀ word ∈ argv, Good word := by
  fun_induction scan fails args j cmd with
  | case1 args j cmd inside op stands behind ih => exact ih (forall_erased good j)
  | case2 => exact Or.inl rfl
  | case3 args j cmd inside none_ pipe child next =>
    have later : ∀ arg ∈ args.drop (j + 1), Good arg.text :=
      fun arg among => good arg (List.mem_of_mem_drop among)
    apply Or.inr
    apply Or.inr
    apply fork_execs fails good
    apply scan_execs fails _ _ _ later
    intro word member
    obtain ⟨arg, dropped, rfl⟩ := List.mem_map.mp member
    exact later arg dropped
  | case4 args j cmd inside none_ plain ih => exact ih good
  | case5 args j cmd =>
    change (execvp fails cmd .exit).execs = [] ∨ (execvp fails cmd .exit).execs = [cmd.argv] ∨ _
    by_cases empty : cmd.argv = []
    · rw [execvp, if_pos empty]
      exact Or.inl rfl
    · exact Or.inr (Or.inl (execs_execvp fails empty _))

end

/-! ## Items of written segments -/

/-- A piece that is passed over, as an item. -/
def keptItem (piece : Word) : Option Item :=
  if passed : Passed piece then some (.word ⟨piece, passed.1, passed.2⟩) else none

/-- The items that a part is cut to. -/
def Part.items : Part → List Item
  | word kept _ => kept.pieces.filterMap keptItem
  | redirection op file _ passed => [.redirection op file.text passed.2]

/-- The items of some parts. -/
def partItems (parts : List Part) : List Item := parts.flatMap Part.items

/-- The empty word behind a blank at the end of the line, as an item. -/
def endItems (blank : Bool) : List Item := if blank then [.word ⟨[], by decide, by decide⟩] else []

/-- The words of two parts. -/
@[simp]
theorem itemWords_append (items items' : List Item) :
    itemWords (items ++ items') = itemWords items ++ itemWords items' := List.flatMap_append

/-- The plain words of two parts. -/
@[simp]
theorem plainWords_append (items items' : List Item) :
    plainWords (items ++ items') = plainWords items ++ plainWords items' :=
  List.filterMap_append

/-- Pieces that are passed over are the words of their items. -/
theorem keptItems_words {pieces : List Word} (passed : ∀ piece ∈ pieces, Passed piece) :
    itemWords (pieces.filterMap keptItem) = pieces ∧
      plainWords (pieces.filterMap keptItem) = pieces := by
  induction pieces with
  | nil => exact ⟨rfl, rfl⟩
  | cons piece pieces ih =>
    have first := passed piece List.mem_cons_self
    have item : keptItem piece = some (.word ⟨piece, first.1, first.2⟩) := dif_pos first
    obtain ⟨words, plain⟩ := ih fun other inside => passed other (.tail _ inside)
    rw [List.filterMap_cons_some item]
    exact ⟨congrArg (piece :: ·) words, congrArg (piece :: ·) plain⟩

/-- Items of pieces have no files. -/
theorem keptItems_files {pieces : List Word} {item : Item}
    (inside : item ∈ pieces.filterMap keptItem) : item.HasFile := by
  obtain ⟨piece, -, same⟩ := List.mem_filterMap.mp inside
  unfold keptItem at same
  split_ifs at same
  rw [← Option.some.inj same]
  trivial

/-- The files of parts are no operators. -/
theorem partItems_files (parts : List Part) : ∀ item ∈ partItems parts, item.HasFile := by
  intro item inside
  obtain ⟨part, -, among⟩ := List.mem_flatMap.mp inside
  cases part with
  | word kept passed => exact keptItems_files among
  | redirection op file nonempty passed =>
    rw [List.mem_singleton.mp among]
    exact passed.1

/-- Where nothing is hidden, the pieces of parts are the words of their items. -/
theorem partItems_words {parts : List Part} (shown : NothingHidden (partWords parts)) :
    itemWords (partItems parts) = partPieces parts ∧
      plainWords (partItems parts) = (partWords parts).flatMap Written.pieces := by
  induction parts with
  | nil => exact ⟨rfl, rfl⟩
  | cons part parts ih =>
    cases part with
    | word kept passed =>
      obtain ⟨words, plain⟩ := ih fun word inside => shown word (.tail _ inside)
      obtain ⟨own, own'⟩ := keptItems_words (shown kept List.mem_cons_self)
      constructor
      · change itemWords (kept.pieces.filterMap keptItem ++ partItems parts) =
          kept.pieces ++ partPieces parts
        rw [itemWords_append, own, words]
      · change plainWords (kept.pieces.filterMap keptItem ++ partItems parts) =
          kept.pieces ++ (partWords parts).flatMap Written.pieces
        rw [plainWords_append, own', plain]
    | redirection op file nonempty passed =>
      obtain ⟨words, plain⟩ := ih shown
      exact ⟨congrArg ([op.text, file.text] ++ ·) words, plain⟩

/-- The empty word at the end. -/
theorem endItems_words (blank : Bool) :
    itemWords (endItems blank) = if blank then [[]] else [] := by
  cases blank <;> rfl

/-- A written word is not without pieces. -/
theorem Written.pieces_ne_nil (word : Written) : word.pieces ≠ [] := by
  intro empty
  obtain ⟨front, last⟩ := List.append_eq_nil_iff.mp empty
  cases word.nonempty with
  | inl spaced => exact spaced (List.map_eq_nil_iff.mp front)
  | inr some_ =>
    rw [if_neg some_] at last
    cases last

/-- A written command as a segment, at the end of a line behind which there is a blank or not. -/
def Command.segment (c : Command) (shown : NothingHidden c.words) (blank : Bool) : Segment where
  items := partItems c.parts ++ endItems blank
  files := by
    intro item inside
    cases List.mem_append.mp inside with
    | inl own => exact partItems_files c.parts item own
    | inr behind =>
      unfold endItems at behind
      split_ifs at behind
      · rw [List.mem_singleton.mp behind]
        trivial
      · cases behind
  command := by
    intro empty
    rw [plainWords_append, (partItems_words shown).2] at empty
    have none_ := (List.append_eq_nil_iff.mp empty).1
    obtain ⟨word, words, shape⟩ := List.exists_cons_of_ne_nil c.nonempty
    rw [shape, List.flatMap_cons] at none_
    exact word.pieces_ne_nil (List.append_eq_nil_iff.mp none_).1

/-- The words of the segment are the pieces of the command. -/
theorem Command.segment_words (c : Command) (shown : NothingHidden c.words) (blank : Bool) :
    (c.segment shown blank).words = partPieces c.parts ++ if blank then [[]] else [] := by
  change itemWords (partItems c.parts ++ endItems blank) = _
  rw [itemWords_append, (partItems_words shown).1, endItems_words]

/-! ## A command alone -/

section

variable (fails : Attempt → Bool) (cmd : Attempt)

/-- The last segment is executed with the words of `cmd`. -/
theorem execs_last (stage : ℕ) (isFirst : Bool) (seg : Segment) (some_ : cmd.argv ≠ []) :
    (scan fails (number stage seg.words) (startIndex isFirst) cmd).execs = [cmd.argv] := by
  rw [scan_last, execs_redirecting]
  exact execs_execvp fails some_ _

/-- Another segment is executed with what the loop leaves of it. -/
theorem execs_next (stage : ℕ) (isFirst : Bool) (seg : Segment) (words : List Word) :
    let behind := number (stage + 1) words
    (scan fails (number stage (seg.words ++ pipeWord :: words)) (startIndex isFirst) cmd).execs =
      leftWords isFirst seg.items ::
        (scan fails behind (startIndex false) (.words behind)).execs := by
  intro behind
  obtain ⟨head, others, shape, -⟩ := leftWords_cons isFirst seg
  have argv : (Attempt.words (tag stage (leftWords isFirst seg.items))).argv =
      leftWords isFirst seg.items := tag_text stage _
  have some_ : (Attempt.words (tag stage (leftWords isFirst seg.items))).argv ≠ [] := by
    rw [argv, shape]
    exact List.cons_ne_nil _ _
  rw [scan_next, execs_redirecting]
  change (execvp fails _ _).execs ++ _ = _
  rw [execs_execvp fails some_, argv]
  rfl

end

/-- A word with an escaped space is not without blanks. -/
theorem Written.not_solid {word : Written} (spaced : word.spaced ≠ []) : ¬ Solid word.value := by
  intro solid
  exact absurd (solid 32 (Written.space_mem spaced)) (by decide)

/-- The words between blanks of a line of commands hold no blank. -/
theorem linePieces_end_solid (c : Command) (rest : List Command) (blank : Bool) :
    ∀ arg ∈ linePieces c rest ++ (if blank then [[]] else []), Solid arg := by
  induction rest generalizing c with
  | nil => exact partPieces_end_solid c.parts blank
  | cons next rest ih =>
    intro arg inside
    rw [linePieces, List.append_assoc] at inside
    cases List.mem_append.mp inside with
    | inl own => exact partPieces_solid c.parts arg own
    | inr behind =>
      cases behind with
      | head => exact pipeWritten.last.solid
      | tail _ inside => exact ih next arg inside

/-- What holds of words holds of the numbered words. -/
theorem number_good {Good : Word → Prop} {words : List Word} (good : ∀ word ∈ words, Good word)
    (stage : ℕ) : ∀ arg ∈ number stage words, Good arg.text := by
  intro arg inside
  apply good
  rw [← number_text stage words]
  exact List.mem_map_of_mem inside

/-- The words of a command are no operators and not the `|`. -/
theorem partWords_passed {parts : List Part} {word : Written} (inside : word ∈ partWords parts) :
    Passed word.text := by
  obtain ⟨part, -, plain⟩ := List.mem_filterMap.mp inside
  cases part with
  | word kept passed =>
    rw [← Option.some.inj plain]
    exact passed
  | redirection => cases plain

/-- Without escaped spaces nothing is hidden, and no word ends in a space. -/
theorem unspaced_right {parts : List Part}
    (unspaced : ∀ word ∈ partWords parts, word.spaced = []) :
    NothingHidden (partWords parts) ∧ SpaceAtEnd (partWords parts) := by
  constructor
  · intro word inside piece among
    obtain ⟨one, -, -⟩ := Written.unspaced (unspaced word inside)
    rw [one] at among
    rw [List.mem_singleton.mp among]
    exact partWords_passed inside
  · intro word inside
    exact (Written.unspaced (unspaced word (List.dropLast_subset _ inside))).2.2

/-- A `|` behind an escaped space of a word, when no operator stands there, is its last piece, and
those in front of it are items. -/
theorem Written.hidden_pipe {kept : Written} (passed : Passed kept.text)
    (plain : ∀ piece ∈ kept.pieces, operator piece = none)
    (hidden : ¬ ∀ piece ∈ kept.pieces, Passed piece) :
    ∃ items, (∀ item ∈ items, Item.HasFile item) ∧ plainWords items ≠ [] ∧
      kept.pieces = itemWords items ++ [pipeWord] := by
  simp only [not_forall] at hidden
  obtain ⟨piece, inside, stops⟩ := hidden
  obtain ⟨spaced, last, some_⟩ := kept.hidden passed inside stops
  have pipe : piece = pipeWord := by
    by_contra solid
    exact stops ⟨plain piece inside, solid⟩
  let front := kept.spaced.map fun block => block.text ++ [92]
  have passes : ∀ piece ∈ front, Passed piece := by
    intro piece inside
    obtain ⟨block, -, rfl⟩ := List.mem_map.mp inside
    exact passed_backslash block.text
  obtain ⟨words, words'⟩ := keptItems_words passes
  exists front.filterMap keptItem
  constructor
  · exact fun item => keptItems_files
  · constructor
    · rw [words']
      exact fun empty => spaced (List.map_eq_nil_iff.mp empty)
    · unfold Written.pieces
      rw [words, if_neg some_, ← last, pipe]

/-- The first `|` behind an escaped space, when no operator stands there: in front of it are items,
and a word of the command among them. -/
theorem exists_hidden_pipe {parts : List Part} (plain : NoOperator (partWords parts))
    (hidden : ¬ NothingHidden (partWords parts)) :
    ∃ items more, (∀ item ∈ items, Item.HasFile item) ∧ plainWords items ≠ [] ∧
      partPieces parts = itemWords items ++ pipeWord :: more := by
  induction parts with
  | nil => exact absurd nofun hidden
  | cons part parts ih =>
    cases part with
    | redirection op file nonempty passed =>
      obtain ⟨items, more, files, command, shape⟩ := ih plain hidden
      exists .redirection op file.text passed.2 :: items, more
      constructor
      · intro item inside
        cases inside with
        | head => exact passed.1
        | tail _ inside => exact files item inside
      · exact ⟨command, congrArg ([op.text, file.text] ++ ·) shape⟩
    | word kept passed =>
      obtain ⟨first, others⟩ := (noOperator_cons kept (partWords parts)).mp plain
      by_cases shown : ∀ piece ∈ kept.pieces, Passed piece
      · have later : ¬ NothingHidden (partWords parts) := fun rest =>
          hidden (List.forall_mem_cons.mpr ⟨shown, rest⟩)
        obtain ⟨items, more, files, command, shape⟩ := ih others later
        obtain ⟨own, own'⟩ := keptItems_words shown
        exists kept.pieces.filterMap keptItem ++ items, more
        constructor
        · intro item inside
          cases List.mem_append.mp inside with
          | inl front => exact keptItems_files front
          | inr behind => exact files item behind
        · constructor
          · rw [plainWords_append]
            exact List.append_ne_nil_of_right_ne_nil _ command
          · rw [itemWords_append, own, List.append_assoc, ← shape]
            rfl
      · obtain ⟨items, files, command, shape⟩ := Written.hidden_pipe passed first shown
        have pieces : partPieces (.word kept passed :: parts) = kept.pieces ++ partPieces parts :=
          rfl
        exists items, partPieces parts
        rw [pieces, shape, List.append_assoc]
        exact ⟨files, command, rfl⟩

/-- At a `|` behind an escaped space the child forks, and executes words between blanks. -/
theorem execs_hidden_pipe (fails : Attempt → Bool) {parts : List Part} (blank : Bool)
    (argv : List Word) (plain : NoOperator (partWords parts))
    (hidden : ¬ NothingHidden (partWords parts)) :
    ∃ first rest,
      (child fails (partPieces parts ++ if blank then [[]] else []) argv).execs = first :: rest ∧
        ∀ word ∈ first, Solid word := by
  have solid : ∀ arg ∈ partPieces parts ++ (if blank then [[]] else []), Solid arg :=
    partPieces_end_solid parts blank
  have good := number_good solid 0
  obtain ⟨items, more, files, command, shape⟩ := exists_hidden_pipe plain hidden
  let seg : Segment := ⟨items, files, command⟩
  let behind := more ++ if blank then [[]] else []
  have words : partPieces parts ++ (if blank then [[]] else []) =
      seg.words ++ pipeWord :: behind := by
    rw [shape, List.append_assoc]
    rfl
  rw [words] at good ⊢
  have forked := execs_next fails (.line argv) 0 true seg behind
  -- the words of the first call do not depend on the line as it was parsed
  have forked' := execs_next fails (.line []) 0 true seg behind
  have called := scan_execs fails _ (startIndex true) (.line []) good nofun
  rw [forked'] at called
  exact ⟨_, _, forked, called _ List.mem_cons_self⟩

/-- A command alone on its line is executed with its own words exactly when no operator and no `|`
stands behind an escaped space, and none but its last word ends in one. -/
theorem execs_alone_iff (fails : Attempt → Bool) (c : Command) (blank : Bool) {argv : List Word}
    (some_ : argv ≠ [])
    (read : parseFrom false none (rebuilt (partPieces c.parts ++ if blank then [[]] else [])) =
      some argv) :
    (child fails (partPieces c.parts ++ if blank then [[]] else []) argv).execs = [c.argv] ↔
      RightAlone c := by
  have meant := parseFrom_rebuilt_iff c.parts blank
  rw [read] at meant
  constructor
  · intro execs
    by_cases unspaced : ∀ word ∈ c.words, word.spaced = []
    · exact unspaced_right unspaced
    · simp only [not_forall] at unspaced
      obtain ⟨kept, inside, spaced⟩ := unspaced
      have among : kept.value ∈ c.argv := List.mem_map_of_mem inside
      have solid : ∀ arg ∈ partPieces c.parts ++ (if blank then [[]] else []), Solid arg :=
        partPieces_end_solid c.parts blank
      have good := number_good solid 0
      change (scan fails (number 0 (partPieces c.parts ++ _)) 0 (.line argv)).execs = _ at execs
      have cases_ := scan_execs_cases fails _ 0 (.line argv) good
      rw [execs] at cases_
      cases cases_ with
      | inl none_ => cases none_
      | inr other =>
        cases other with
        | inr solid =>
          exact absurd (solid c.argv List.mem_cons_self kept.value among)
            (Written.not_solid spaced)
        | inl own =>
          have same : argv = c.argv := (List.cons.inj own).1.symm
          obtain ⟨plain, space⟩ := meant.mp (congrArg some same)
          apply And.intro _ space
          by_contra hidden
          obtain ⟨first, rest, executed, good⟩ :=
            execs_hidden_pipe fails blank argv plain hidden
          have words : first = c.argv := (List.cons.inj (executed.symm.trans execs)).1
          rw [words] at good
          exact absurd (good kept.value among) (Written.not_solid spaced)
  · intro right
    have plain : NoOperator c.words := fun word inside piece among =>
      (right.1 word inside piece among).1
    have same := Option.some.inj (meant.mpr ⟨plain, right.2⟩)
    have ran := execs_last fails (.line argv) 0 true (c.segment right.1 blank) some_
    rw [c.segment_words] at ran
    exact ran.trans (congrArg ([·]) same)

/-! ## Commands of a pipeline -/

/-- The argument vectors for the commands behind a `|`, when there are no escaped spaces. -/
def laterExecs (c : Command) (blank : Bool) : List Command → List (List Word)
  | [] => [partPieces c.parts ++ if blank then [[]] else []]
  | next :: rest => leftWords false (partItems c.parts) :: laterExecs next blank rest

section

variable (fails : Attempt → Bool) (blank : Bool)

/-- The commands behind a `|` are executed with what is left of them. -/
theorem execs_later (c : Command) (rest : List Command)
    (shown : ∀ other ∈ c :: rest, NothingHidden other.words) (stage : ℕ) :
    let args := number stage (linePieces c rest ++ if blank then [[]] else [])
    (scan fails args (startIndex false) (.words args)).execs = laterExecs c blank rest := by
  induction rest generalizing c stage with
  | nil =>
    intro args
    have own := shown c List.mem_cons_self
    have words := c.segment_words own blank
    have argv : (Attempt.words args).argv = linePieces c [] ++ if blank then [[]] else [] :=
      number_text stage _
    have some_ : (Attempt.words args).argv ≠ [] := by
      rw [argv, linePieces, ← words]
      exact (c.segment own blank).words_ne_nil
    have ran := execs_last fails (.words args) stage false (c.segment own blank) some_
    rw [words, argv] at ran
    exact ran
  | cons next rest ih =>
    intro args
    have own := shown c List.mem_cons_self
    have ran := execs_next fails (.words args) stage false (c.segment own false)
      (linePieces next rest ++ if blank then [[]] else [])
    have words : (c.segment own false).words = partPieces c.parts :=
      (c.segment_words own false).trans (List.append_nil _)
    have items : (c.segment own false).items = partItems c.parts := List.append_nil _
    have later := ih next (fun other inside => shown other (.tail _ inside)) (stage + 1)
    rw [words, items] at ran
    rw [← List.cons_append, ← List.append_assoc] at ran
    exact ran.trans (congrArg (leftWords false (partItems c.parts) :: ·) later)

end

section

variable {parts : List Part}

/-- Without escaped spaces, the words between blanks are the words that are meant. -/
theorem unspaced_argv (unspaced : ∀ word ∈ partWords parts, word.spaced = []) :
    plainWords (partItems parts) = (partWords parts).map Written.value := by
  rw [(partItems_words (unspaced_right unspaced).1).2, List.map_eq_flatMap]
  apply List.flatMap_congr
  intro word inside
  obtain ⟨one, value, -⟩ := Written.unspaced (unspaced word inside)
  rw [one, value]

/-- A word without escaped spaces is one item. -/
theorem partItems_word {kept : Written} (one : kept.spaced = []) (passed : Passed kept.text) :
    partItems (.word kept passed :: parts) =
      .word ⟨kept.text, passed.1, passed.2⟩ :: partItems parts := by
  have item : keptItem kept.text = some (.word ⟨kept.text, passed.1, passed.2⟩) := dif_pos passed
  change kept.pieces.filterMap keptItem ++ partItems parts = _
  rw [(Written.unspaced one).1, List.filterMap_cons_some item]
  rfl

/-- A segment that is scanned from its second word on keeps its words exactly when it does not begin
with a redirection. -/
theorem stuckWords_iff (unspaced : ∀ word ∈ partWords parts, word.spaced = []) :
    stuckWords (partItems parts) = plainWords (partItems parts) ↔ ¬ BeginsRedirected parts := by
  cases parts with
  | nil => exact iff_of_true rfl id
  | cons part parts =>
    cases part with
    | word kept passed =>
      rw [partItems_word (unspaced kept List.mem_cons_self)]
      exact iff_of_true rfl id
    | redirection op file nonempty passed =>
      refine iff_of_false (fun same => ?_) (not_not.mpr trivial)
      let items := partItems (.redirection op file nonempty passed :: parts)
      have inside : op.text ∈ plainWords items := by
        rw [← same]
        exact List.mem_cons_self
      have plain := (plainWords_passed inside).1
      rw [operator_text] at plain
      cases plain

/-- The first segment keeps its words exactly when it does not begin with two redirections. -/
theorem leftWords_first_iff (unspaced : ∀ word ∈ partWords parts, word.spaced = []) :
    leftWords true (partItems parts) = plainWords (partItems parts) ↔ ¬ BeginsWithTwo parts := by
  cases parts with
  | nil => exact iff_of_true rfl id
  | cons part parts =>
    cases part with
    | word kept passed =>
      rw [partItems_word (unspaced kept List.mem_cons_self)]
      exact iff_of_true rfl id
    | redirection op file nonempty passed => exact stuckWords_iff unspaced

/-- The words between blanks are those of the command exactly when there is no redirection, and
nothing behind. -/
theorem partPieces_iff (unspaced : ∀ word ∈ partWords parts, word.spaced = [])
    (behind : List Word) :
    partPieces parts ++ behind = (partWords parts).map Written.value ↔
      behind = [] ∧ ∀ part ∈ parts, ¬ part.IsRedirection := by
  induction parts with
  | nil => simp [partPieces, partWords]
  | cons part parts ih =>
    cases part with
    | word kept passed =>
      obtain ⟨one, value, -⟩ := Written.unspaced (unspaced kept List.mem_cons_self)
      have later := ih fun word inside => unspaced word (.tail _ inside)
      change kept.pieces ++ partPieces parts ++ behind =
        kept.value :: (partWords parts).map Written.value ↔ _
      rw [one, value, List.append_assoc, List.singleton_append, List.cons_inj_right, later,
        List.forall_mem_cons]
      simp only [Part.IsRedirection, not_false_eq_true, true_and]
    | redirection op file nonempty passed =>
      refine iff_of_false (fun same => ?_) fun right =>
        right.2 (.redirection op file nonempty passed) List.mem_cons_self trivial
      have inside : op.text ∈ (partWords parts).map Written.value :=
        (congrArg (op.text ∈ ·) same).mp List.mem_cons_self
      obtain ⟨word, among, text⟩ := List.mem_map.mp inside
      have plain := (partWords_passed among).1
      rw [← (Written.unspaced (unspaced word among)).2.1, text, operator_text] at plain
      cases plain

end

/-- The commands behind a `|` are executed with their own words exactly when there is no blank at
the end of the line and no redirection that is not erased. -/
theorem laterExecs_iff (c : Command) (blank : Bool) (rest : List Command)
    (unspaced : ∀ other ∈ c :: rest, ∀ word ∈ other.words, word.spaced = []) :
    laterExecs c blank rest = (c :: rest).map Command.argv ↔
      blank = false ∧ RightBehind c rest := by
  induction rest generalizing c with
  | nil =>
    have own := partPieces_iff (unspaced c List.mem_cons_self) (if blank then [[]] else [])
    have behind : (if blank then [[]] else [] : List Word) = [] ↔ blank = false := by
      cases blank <;> simp
    rw [behind] at own
    exact List.singleton_inj.trans own
  | cons next rest ih =>
    have own := unspaced c List.mem_cons_self
    have later := ih next fun other inside => unspaced other (.tail _ inside)
    have first : stuckWords (partItems c.parts) = c.argv ↔ ¬ BeginsRedirected c.parts := by
      have stuck := stuckWords_iff own
      rwa [unspaced_argv own] at stuck
    change stuckWords (partItems c.parts) :: laterExecs next blank rest =
      c.argv :: (next :: rest).map Command.argv ↔ blank = false ∧ ¬ BeginsRedirected c.parts ∧ _
    rw [List.cons_eq_cons, later, first]
    tauto

/-- The commands of a pipeline that is executed with their words have no escaped spaces. -/
theorem unspaced_of_execs {fails : Attempt → Bool} {line : Bytes} {first next : Command}
    {rest : List Command} {argv : List Word}
    (executed :
      (child fails (linePieces first (next :: rest) ++ if endsBlank line then [[]] else [])
        argv).execs = (first :: next :: rest).map Command.argv) :
    ∀ c ∈ first :: next :: rest, ∀ word ∈ c.words, word.spaced = [] := by
  by_contra hidden
  simp only [not_forall] at hidden
  obtain ⟨c, among, kept, inside, spaced⟩ := hidden
  have solid := linePieces_end_solid first (next :: rest) (endsBlank line)
  have cases_ := scan_execs_cases fails _ 0 (.line argv) (number_good solid 0)
  unfold child at executed
  rw [executed] at cases_
  cases cases_ with
  | inl none_ => cases none_
  | inr other =>
    cases other with
    | inl one => cases (List.cons.inj one).2
    | inr good =>
      have value : kept.value ∈ c.argv := List.mem_map_of_mem inside
      exact Written.not_solid spaced (good c.argv (List.mem_map_of_mem among) kept.value value)

/-- A pipeline is executed with the words of its commands exactly when there are no escaped spaces,
no blank at the end of the line and no redirection that is not erased. -/
theorem execs_piped_iff (fails : Attempt → Bool) (line : Bytes) (first next : Command)
    (rest : List Command) (argv : List Word) :
    let args := linePieces first (next :: rest) ++ if endsBlank line then [[]] else []
    (child fails args argv).execs = (first :: next :: rest).map Command.argv ↔
      RightPiped line first next rest := by
  intro args
  by_cases unspaced : ∀ c ∈ first :: next :: rest, ∀ word ∈ c.words, word.spaced = []
  · have shown : ∀ c ∈ first :: next :: rest, NothingHidden c.words := fun c inside =>
      (unspaced_right (unspaced c inside)).1
    have own := unspaced first List.mem_cons_self
    have ran := execs_next fails (.line argv) 0 true
      (first.segment (shown first List.mem_cons_self) false)
      (linePieces next rest ++ if endsBlank line then [[]] else [])
    have words : (first.segment (shown first List.mem_cons_self) false).words =
        partPieces first.parts := (first.segment_words _ false).trans (List.append_nil _)
    have items : (first.segment (shown first List.mem_cons_self) false).items =
        partItems first.parts := List.append_nil _
    have later := execs_later fails (endsBlank line) next rest
      (fun c inside => shown c (.tail _ inside)) 1
    have others := laterExecs_iff next (endsBlank line) rest fun c inside =>
      unspaced c (.tail _ inside)
    have left : leftWords true (partItems first.parts) = first.argv ↔
        ¬ BeginsWithTwo first.parts := by
      have kept := leftWords_first_iff own
      rwa [unspaced_argv own] at kept
    rw [words, items, ← List.cons_append, ← List.append_assoc] at ran
    have executed : (child fails args argv).execs =
        leftWords true (partItems first.parts) :: laterExecs next (endsBlank line) rest :=
      ran.trans (congrArg (leftWords true (partItems first.parts) :: ·) later)
    rw [executed, List.map_cons, List.cons_eq_cons, left, others]
    constructor
    · intro right
      exact ⟨unspaced, right.2.1, right.1, right.2.2⟩
    · intro right
      exact ⟨right.first, right.ends, right.others⟩
  · apply iff_of_false
    · exact fun executed => unspaced (unspaced_of_execs executed)
    · exact fun right => unspaced right.unspaced

/-- The commands of a line are executed with their own words exactly when a command alone hides
nothing behind its escaped spaces and has none at the end of a word in front of another; or, with
several commands, when there are no escaped spaces, no blank at the end of the line, no redirection
in the last command, none at the front of another but the first, and not two at the front of the
first. -/
theorem execs_iff (fails : Attempt → Bool) (line : Bytes) (first : Command) (rest : List Command)
    (writes : Writes (lineWritten first rest) line) {p : Process}
    (forked : forkChild fails line = some p) :
    p.execs = (first :: rest).map Command.argv ↔ Right line first rest := by
  obtain ⟨cmd, parsed, some_, rfl⟩ := forkChild_some forked
  have read := parseFrom_newBuffer parsed
  rw [writes.cString, writes.split, lineWritten_pieces] at read ⊢
  cases rest with
  | nil => exact execs_alone_iff fails first (endsBlank line) some_ read
  | cons next rest => exact execs_piped_iff fails line first next rest cmd.argv

/-- The word `a`. -/
def wordA : Written :=
  soleWord ⟨bytes "a", by decide +kernel, by decide +kernel, rfl⟩ (by decide)

/-- The word `b`. -/
def wordB : Written :=
  soleWord ⟨bytes "b", by decide +kernel, by decide +kernel, rfl⟩ (by decide)

/-- The command `a`. -/
def commandA : Command := ⟨[.word wordA (by decide)], List.cons_ne_nil _ _⟩

/-- The command `b`. -/
def commandB : Command := ⟨[.word wordB (by decide)], List.cons_ne_nil _ _⟩

/-- The command `b > f`. -/
def commandBF : Command where
  parts := [.word wordB (by decide),
    .redirection .output ⟨bytes "f", by decide +kernel, by decide +kernel, rfl⟩ (by decide)
      (by decide)]
  nonempty := List.cons_ne_nil _ _

/-- The line `a | b` executes `a` and `b`. -/
theorem execs_iff_pair :
    (child (fun _ => false) [bytes "a", pipeWord, bytes "b"]
      [bytes "a", pipeWord, bytes "b"]).execs = [[bytes "a"], [bytes "b"]] ↔
        Right (bytes "a | b") commandA [commandB] :=
  execs_iff (fun _ => false) (bytes "a | b") commandA [commandB]
    (@Writes.intro _ [] _ nofun (.cons wordA (List.cons_ne_nil 32 []) (by decide +kernel)
      (.cons pipeWritten (List.cons_ne_nil 32 []) (by decide +kernel) (.last wordB [] nofun)))) rfl

/-- The line `a | b > f` executes `b` with its redirection. -/
theorem not_execs_redirected : Writes (lineWritten commandA [commandBF]) (bytes "a | b > f") ∧
    ∃ p, forkChild (fun _ => false) (bytes "a | b > f") = some p ∧
      p.execs ≠ [commandA, commandBF].map Command.argv := by
  let words : List Word := [bytes "a", pipeWord, bytes "b"]
  constructor
  · exact @Writes.intro _ [] _ nofun (.cons wordA (List.cons_ne_nil 32 []) (by decide +kernel)
      (.cons pipeWritten (List.cons_ne_nil 32 []) (by decide +kernel)
        (.cons wordB (List.cons_ne_nil 32 []) (by decide +kernel)
          (.cons (soleWord Operator.output.block (by decide)) (List.cons_ne_nil 32 [])
            (by decide +kernel) (.last (soleWord ⟨bytes "f", by decide +kernel,
              by decide +kernel, rfl⟩ (by decide)) [] nofun)))))
  · refine ⟨child (fun _ => false) (words ++ [bytes ">", bytes "f"]) words, rfl, ?_⟩
    intro executed
    have right := (execs_piped_iff (fun _ => false) (bytes "a | b > f") commandA commandBF []
      words).mp executed
    exact right.others _ (List.mem_cons_of_mem _ List.mem_cons_self) trivial

end TinyTools.Shell
