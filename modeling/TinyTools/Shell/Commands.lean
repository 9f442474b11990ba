import TinyTools.Shell.Pipeline
import TinyTools.Shell.Writing

/-!
# Written commands

A segment of a line as its user writes it: words of the command, and operators with the words for
their files. The words that are read again from `newBuffer` are those of the command as long as no
operator stands behind an escaped space, and no word in front of another ends in one.
-/

namespace TinyTools.Shell

open TinyTools.Lib

/-- The operator as it is written. -/
def Operator.block (op : Operator) : Block where
  text := op.text
  solid := by cases op <;> decide +kernel
  noNul := by cases op <;> decide +kernel
  complete := by cases op <;> decide

/-- A word of one block. -/
def soleWord (block : Block) (some_ : block.text ≠ []) : Written := ⟨[], block, Or.inr some_⟩

/-- The word between segments as it is written. -/
def pipeWritten : Written :=
  soleWord ⟨pipeWord, by decide +kernel, by decide +kernel, by decide⟩ (by decide)

/-- What a segment is written of. -/
inductive Part
  /-- A word of the command. -/
  | word (word : Written) (passed : Passed word.text)
  /-- An operator and the word for its file. -/
  | redirection (op : Operator) (file : Block) (nonempty : file.text ≠ [])
    (passed : Passed file.text)

/-- The word of the command that a part is. -/
def Part.plain : Part → Option Written
  | word kept _ => some kept
  | redirection _ _ _ _ => none

/-- The words on the line. -/
def Part.written : Part → List Written
  | word kept _ => [kept]
  | redirection op file nonempty _ =>
    [soleWord op.block (by cases op <;> decide), soleWord file nonempty]

/-- The pieces between the blanks of the line. -/
def Part.pieces : Part → List Word
  | word kept _ => kept.pieces
  | redirection op file _ _ => [op.text, file.text]

/-- The words of the command among some parts. -/
def partWords (parts : List Part) : List Written := parts.filterMap Part.plain

/-- The pieces of some parts. -/
def partPieces (parts : List Part) : List Word := parts.flatMap Part.pieces

/-- A segment as it is written. -/
structure Command where
  /-- The words and the redirections. -/
  parts : List Part
  /-- There is a word. -/
  nonempty : partWords parts ≠ []

/-- The words of the command. -/
def Command.words (c : Command) : List Written := partWords c.parts

/-- The argument vector that is meant. -/
def Command.argv (c : Command) : List Word := c.words.map Written.value

/-- The words on the line. -/
def Command.written (c : Command) : List Written := c.parts.flatMap Part.written

/-- The words on a line of commands. -/
def lineWritten (c : Command) : List Command → List Written
  | [] => c.written
  | next :: rest => c.written ++ pipeWritten :: lineWritten next rest

/-- The pieces of a line of commands. -/
def linePieces (c : Command) : List Command → List Word
  | [] => partPieces c.parts
  | next :: rest => partPieces c.parts ++ pipeWord :: linePieces next rest

/-- No operator, and not the `|`, stands behind an escaped space of some words. -/
def NothingHidden (words : List Written) : Prop :=
  ∀ word ∈ words, ∀ piece ∈ word.pieces, Passed piece

/-- Only the last of some words may end in an escaped space. -/
def SpaceAtEnd (words : List Written) : Prop := ∀ word ∈ words.dropLast, word.last.text ≠ []

/-! ## Pieces -/

/-- The pieces of the words on a line of commands. -/
theorem lineWritten_pieces (c : Command) (rest : List Command) :
    (lineWritten c rest).flatMap Written.pieces = linePieces c rest := by
  have own (c : Command) : c.written.flatMap Written.pieces = partPieces c.parts := by
    unfold Command.written partPieces
    rw [List.flatMap_assoc]
    congr
    funext part
    cases part with
    | word kept => exact List.flatMap_singleton _ _
    | redirection op file nonempty =>
      have some_ : op.text ≠ [] := by cases op <;> decide
      simp [Part.written, Part.pieces, Written.pieces, soleWord, nonempty, some_, Operator.block]
  induction rest generalizing c with
  | nil => exact own c
  | cons next rest ih =>
    rw [lineWritten, linePieces, List.flatMap_append, List.flatMap_cons, own, ih]
    rfl

/-- A piece in front of an escaped space is passed over. -/
theorem passed_backslash (text : Bytes) : Passed (text ++ [92]) := by
  have ends (word : Word) (other : word.getLast? ≠ some 92) : text ++ [92] ≠ word := by
    intro same
    rw [← same] at other
    exact other (List.getLast?_concat)
  constructor
  · cases stands : operator (text ++ [92]) with
    | none => rfl
    | some op => exact absurd (operator_eq_some stands) (ends _ (by cases op <;> decide))
  · exact ends _ (by decide)

/-- A piece of a word that the loop stops at is the last block, behind an escaped space. -/
theorem Written.hidden {word : Written} (passed : Passed word.text) {piece : Word}
    (inside : piece ∈ word.pieces) (stops : ¬ Passed piece) :
    word.spaced ≠ [] ∧ piece = word.last.text ∧ word.last.text ≠ [] := by
  cases List.mem_append.mp inside with
  | inl front =>
    obtain ⟨block, -, rfl⟩ := List.mem_map.mp front
    exact absurd (passed_backslash block.text) stops
  | inr last =>
    split_ifs at last with empty
    · cases last
    · have same := List.mem_singleton.mp last
      refine ⟨fun none_ => stops ?_, same, empty⟩
      have whole : word.text = word.last.text := by
        unfold text
        rw [none_]
        rfl
      rw [same, ← whole]
      exact passed

/-- The pieces of a written word hold no blank. -/
theorem Written.pieces_solid (word : Written) :
    ∀ piece ∈ word.pieces, ∀ byte ∈ piece, isSpace byte = false := by
  intro piece inside byte among
  cases List.mem_append.mp inside with
  | inl front =>
    obtain ⟨block, -, rfl⟩ := List.mem_map.mp front
    cases List.mem_append.mp among with
    | inl own => exact block.solid byte own
    | inr escape =>
      rw [List.mem_singleton.mp escape]
      rfl
  | inr last =>
    split_ifs at last
    · cases last
    · rw [List.mem_singleton.mp last] at among
      exact word.last.solid byte among

/-- The pieces of parts hold no blank. -/
theorem partPieces_solid (parts : List Part) :
    ∀ piece ∈ partPieces parts, ∀ byte ∈ piece, isSpace byte = false := by
  intro piece inside
  obtain ⟨part, -, among⟩ := List.mem_flatMap.mp inside
  cases part with
  | word kept => exact kept.pieces_solid piece among
  | redirection op file =>
    cases among with
    | head => exact op.block.solid
    | tail _ among =>
      rw [List.mem_singleton.mp among]
      exact file.solid

/-- The words between blanks hold no blank. -/
theorem partPieces_end_solid (parts : List Part) (blank : Bool) :
    ∀ arg ∈ partPieces parts ++ (if blank then [[]] else []),
      ∀ byte ∈ arg, isSpace byte = false := by
  intro arg inside
  cases List.mem_append.mp inside with
  | inl own => exact partPieces_solid parts arg own
  | inr behind =>
    split_ifs at behind
    · rw [List.mem_singleton.mp behind]
      exact nofun
    · cases behind

/-- A word with an escaped space holds a space. -/
theorem Written.space_mem {word : Written} (spaced : word.spaced ≠ []) : 32 ∈ word.value := by
  obtain ⟨block, blocks, shape⟩ := List.exists_cons_of_ne_nil spaced
  unfold value
  rw [shape]
  simp

/-- A word without escaped spaces is one piece, and is meant as it is written. -/
theorem Written.unspaced {word : Written} (none_ : word.spaced = []) :
    word.pieces = [word.text] ∧ word.value = word.text ∧ word.last.text ≠ [] := by
  have last := word.nonempty.resolve_left (not_not.mpr none_)
  unfold pieces value text
  rw [none_, if_neg last]
  exact ⟨rfl, rfl, last⟩

/-! ## What is rebuilt of pieces -/

/-- Pieces in front of escaped spaces are kept. -/
theorem rebuilt_spaced (blocks : List Block) (rest : List Word) :
    rebuilt (blocks.map (fun block => block.text ++ [92]) ++ rest) =
      blocks.flatMap (fun block => block.text ++ [92, 32]) ++ rebuilt rest := by
  induction blocks with
  | nil => rfl
  | cons block blocks ih =>
    rw [List.map_cons, List.cons_append, rebuilt_plain (passed_backslash block.text).1, ih,
      List.flatMap_cons]
    simp

/-- An operator is dropped, with the word behind it if there is one. -/
theorem rebuilt_tail (op : Operator) (rest : List Word) :
    rebuilt (op.text :: rest) = rebuilt rest.tail := by
  cases rest with
  | nil => exact if_pos (operator_isSome op)
  | cons next rest => exact rebuilt_operator op next rest

/-- Of some words nothing is rebuilt, or one that is no operator comes first. -/
theorem rebuilt_front (args : List Word) :
    rebuilt args = [] ∨
      ∃ word ∈ args, ∃ rest, operator word = none ∧ rebuilt args = word ++ 32 :: rest := by
  induction args using rebuilt.induct with
  | case1 => exact Or.inl rfl
  | case2 word stands => exact Or.inl (if_pos stands)
  | case3 word plain =>
    have none_ : operator word = none := by simpa using plain
    exact Or.inr ⟨word, List.mem_cons_self, [], none_, if_neg plain⟩
  | case4 word next rest stands ih =>
    have same : rebuilt (word :: next :: rest) = rebuilt rest := if_pos stands
    rw [same]
    cases ih with
    | inl empty => exact Or.inl empty
    | inr front =>
      obtain ⟨first, inside, others⟩ := front
      exact Or.inr ⟨first, .tail _ (.tail _ inside), others⟩
  | case5 word next rest plain =>
    have none_ : operator word = none := by simpa using plain
    exact Or.inr ⟨word, List.mem_cons_self, _, none_, if_neg plain⟩

/-! ## The first word that is read -/

/-- The first word that is read begins with what was read of it. -/
theorem parseFrom_extends {waiting : Bool} {word : Word} {text : Bytes} {words : List Word}
    (read : parseFrom waiting (some word) text = some words) :
    ∃ more rest, words = (word ++ more) :: rest := by
  induction text generalizing waiting word words with
  | nil =>
    cases waiting with
    | true => cases read
    | false => exact ⟨[], [], by rw [← Option.some.inj read, List.append_nil]; rfl⟩
  | cons byte text ih =>
    have longer {more : Word} {waiting : Bool}
        (read : parseFrom waiting (some (word ++ more)) text = some words) :
        ∃ more rest, words = (word ++ more) :: rest := by
      obtain ⟨others, rest, shape⟩ := ih read
      exact ⟨more ++ others, rest, by rw [shape, List.append_assoc]⟩
    cases waiting with
    | true => exact longer read
    | false =>
      rw [parseFrom] at read
      split_ifs at read
      · exact ih read
      · obtain ⟨rest, -, rfl⟩ := Option.map_eq_some_iff.mp read
        exact ⟨[], rest, by rw [List.append_nil]; rfl⟩
      · exact longer read

/-- A text whose end leaves a backslash waiting ends with it. -/
theorem waits_concat {text : Bytes} (waiting : waits false text = true) :
    ∃ front, text = front ++ [92] ∧ waits false front = false := by
  have step (was : Bool) (front : Bytes) (byte : UInt8) :
      waits was (front ++ [byte]) = (!waits was front && byte == 92) := by
    induction front generalizing was with
    | nil => rfl
    | cons other front ih => exact ih _
  cases List.eq_nil_or_concat text with
  | inl empty =>
    rw [empty] at waiting
    cases waiting
  | inr last =>
    obtain ⟨front, byte, shape⟩ := last
    rw [shape, List.concat_eq_append, step] at waiting
    obtain ⟨free, escape⟩ := Bool.and_eq_true_iff.mp waiting
    rw [Bool.not_eq_true'] at free
    exact ⟨front, by rw [shape, List.concat_eq_append, eq_of_beq escape], free⟩

/-- Behind what was read of a word, a piece and a space add the piece, or something with a space. -/
theorem parseFrom_piece {piece : Word} (solid : ∀ byte ∈ piece, isSpace byte = false)
    {word : Word} {rest : Bytes} {words : List Word}
    (read : parseFrom false (some word) (piece ++ 32 :: rest) = some words) :
    ∃ more others, words = (word ++ more) :: others ∧ (more = piece ∨ 32 ∈ more) := by
  have ends (front : Word) (more : Bytes)
      (read : parseFrom false (some front) (32 :: more) = some words) :
      ∃ others, words = front :: others := by
    rw [parseFrom_blank (by decide)] at read
    obtain ⟨others, -, rfl⟩ := Option.map_eq_some_iff.mp read
    exact ⟨others, rfl⟩
  cases waiting : waits false piece with
  | false =>
    by_cases empty : piece = []
    · rw [empty] at read
      obtain ⟨others, shape⟩ := ends word rest read
      exact ⟨[], others, by rw [shape, List.append_nil], Or.inl empty.symm⟩
    · rw [parseFrom_solid solid empty waiting] at read
      obtain ⟨others, shape⟩ := ends _ rest read
      exact ⟨piece, others, shape, Or.inl rfl⟩
  | true =>
    obtain ⟨front, rfl, free⟩ := waits_concat waiting
    have own := fun byte inside => solid byte (List.mem_append_left [92] inside)
    rw [List.append_assoc] at read
    have joined := (parseFrom_block own free (some word) rest).symm.trans read
    obtain ⟨more, others, shape⟩ := parseFrom_extends joined
    refine ⟨front ++ [32] ++ more, others, ?_, Or.inr (by simp)⟩
    rw [shape, List.append_assoc]
    rfl

/-! ## Words of a command and words that are read -/

/-- Words of a command are rebuilt with a first piece of them in front. -/
theorem rebuilt_parts_front {parts : List Part} (some_ : partWords parts ≠ [])
    (behind : List Word) :
    ∃ piece rest, piece ≠ [] ∧ (∀ byte ∈ piece, isSpace byte = false) ∧
      rebuilt (partPieces parts ++ behind) = piece ++ 32 :: rest := by
  induction parts with
  | nil => exact absurd rfl some_
  | cons part parts ih =>
    cases part with
    | redirection op file nonempty passed =>
      have dropped := rebuilt_operator op file.text (partPieces parts ++ behind)
      obtain ⟨piece, rest, shape⟩ := ih some_
      exact ⟨piece, rest, shape.1, shape.2.1, dropped.trans shape.2.2⟩
    | word kept passed =>
      have first : ∃ piece others, kept.pieces = piece :: others ∧ piece ≠ [] ∧
          operator piece = none := by
        cases shape : kept.spaced with
        | nil =>
          obtain ⟨one, -, last⟩ := Written.unspaced shape
          exact ⟨kept.text, [], one, kept.text_ne_nil, passed.1⟩
        | cons block blocks =>
          unfold Written.pieces
          rw [shape]
          exact ⟨block.text ++ [92], _, rfl, by simp, (passed_backslash block.text).1⟩
      obtain ⟨piece, others, shape, nonempty, plain⟩ := first
      have solid := kept.pieces_solid piece (by rw [shape]; exact List.mem_cons_self)
      refine ⟨piece, rebuilt (others ++ (partPieces parts ++ behind)), nonempty, solid, ?_⟩
      have pieces : partPieces (.word kept passed :: parts) ++ behind =
          piece :: (others ++ (partPieces parts ++ behind)) := by
        unfold partPieces
        rw [List.flatMap_cons, Part.pieces, shape]
        simp
      rw [pieces, rebuilt_plain plain]

/-- Behind a word that ends in a space, the reading of rebuilt words goes on with that word. -/
theorem parseFrom_joined {parts : List Part} (some_ : partWords parts ≠ []) (behind : List Word)
    (word : Word) (others : List Word) :
    parseFrom false (some word) (rebuilt (partPieces parts ++ behind)) ≠ some (word :: others) := by
  intro read
  obtain ⟨piece, rest, nonempty, solid, shape⟩ := rebuilt_parts_front some_ behind
  rw [shape] at read
  obtain ⟨more, others', same, added⟩ := parseFrom_piece solid read
  have nothing : more = [] := List.self_eq_append_right.mp (List.cons.inj same).1
  rw [nothing] at added
  cases added with
  | inl empty => exact nonempty empty.symm
  | inr space => cases space

/-- Behind an escaped space, the reading of rebuilt words does not come to an operator. -/
theorem parseFrom_operator {args : List Word}
    (solid : ∀ arg ∈ args, ∀ byte ∈ arg, isSpace byte = false) (word : Word) (op : Operator)
    (others : List Word) :
    parseFrom false (some word) (rebuilt args) ≠ some ((word ++ op.text) :: others) := by
  intro read
  cases rebuilt_front args with
  | inl empty =>
    rw [empty] at read
    have same := (List.cons.inj (Option.some.inj read)).1
    have nothing : op.text = [] := List.self_eq_append_right.mp same
    cases op <;> exact absurd nothing (by decide)
  | inr front =>
    obtain ⟨first, inside, rest, plain, shape⟩ := front
    rw [shape] at read
    obtain ⟨more, others', same, added⟩ := parseFrom_piece (solid first inside) read
    have text : op.text = more := List.append_cancel_left (List.cons.inj same).1
    rw [← text] at added
    cases added with
    | inl own =>
      rw [← own, operator_text] at plain
      cases plain
    | inr space => cases op <;> exact absurd space (by decide)

/-- No operator stands behind an escaped space of some words. -/
def NoOperator (words : List Written) : Prop :=
  ∀ word ∈ words, ∀ piece ∈ word.pieces, operator piece = none

/-- No operator stands behind an escaped space of a first word and of the others. -/
theorem noOperator_cons (word : Written) (words : List Written) :
    NoOperator (word :: words) ↔
      (∀ piece ∈ word.pieces, operator piece = none) ∧ NoOperator words := List.forall_mem_cons

/-- A first word may end in a space when it is the last. -/
theorem spaceAtEnd_cons (word : Written) (words : List Written) :
    SpaceAtEnd (word :: words) ↔
      (words = [] ∨ word.last.text ≠ []) ∧ SpaceAtEnd words := by
  unfold SpaceAtEnd
  by_cases single : words = []
  · rw [single]
    simp
  · rw [List.dropLast_cons_of_ne_nil single, List.forall_mem_cons]
    simp [single]

/-- A word of no command has no words in front of what is behind it. -/
theorem rebuilt_redirections {parts : List Part} (none_ : partWords parts = [])
    (behind : List Word) : rebuilt (partPieces parts ++ behind) = rebuilt behind := by
  induction parts with
  | nil => rfl
  | cons part parts ih =>
    cases part with
    | word kept passed => cases none_
    | redirection op file nonempty passed =>
      exact (rebuilt_operator op file.text (partPieces parts ++ behind)).trans (ih none_)

/-- What is rebuilt of the pieces in front of the last block. -/
theorem rebuilt_pieces (kept : Written) (behind : List Word) :
    rebuilt (kept.pieces ++ behind) =
      kept.spaced.flatMap (fun block => block.text ++ [92, 32]) ++
        rebuilt ((if kept.last.text = [] then [] else [kept.last.text]) ++ behind) := by
  unfold Written.pieces
  rw [List.append_assoc, rebuilt_spaced]

/-- An operator among the pieces of a word is its last block. -/
theorem operator_pieces_iff (kept : Written) :
    (∀ piece ∈ kept.pieces, operator piece = none) ↔ operator kept.last.text = none := by
  by_cases last : kept.last.text = []
  · refine iff_of_true (fun piece inside => ?_) (last ▸ operator_nil)
    unfold Written.pieces at inside
    rw [if_pos last, List.append_nil] at inside
    obtain ⟨block, -, rfl⟩ := List.mem_map.mp inside
    exact (passed_backslash block.text).1
  · unfold Written.pieces
    rw [if_neg last]
    constructor
    · intro plain
      exact plain _ (List.mem_append_right _ List.mem_cons_self)
    · intro plain piece inside
      cases List.mem_append.mp inside with
      | inl front =>
        obtain ⟨block, -, rfl⟩ := List.mem_map.mp front
        exact (passed_backslash block.text).1
      | inr own =>
        rw [List.mem_singleton.mp own]
        exact plain

section

variable (kept : Written) (parts : List Part) (blank : Bool)

/-- A word that ends in a space is read again as it is meant when no word follows. -/
theorem parseFrom_space_iff (last : kept.last.text = []) :
    parseFrom false none (rebuilt (kept.pieces ++
        (partPieces parts ++ if blank then [[]] else []))) =
      some (kept.value :: (partWords parts).map Written.value) ↔ partWords parts = [] := by
  have text : kept.spaced.flatMap (fun block => block.text ++ [92, 32]) = kept.text := by
    unfold Written.text
    rw [last, List.append_nil]
  rw [rebuilt_pieces, if_pos last, List.nil_append, text, kept.parse]
  constructor
  · intro read
    by_contra some_
    exact parseFrom_joined some_ (if blank then [[]] else []) kept.value _ read
  · intro single
    rw [rebuilt_redirections single, single]
    cases blank <;> rfl

/-- A word whose last block is no operator is read again as it is meant. -/
theorem parseFrom_plain_iff (last : kept.last.text ≠ [])
    (plain : operator kept.last.text = none) (behind values : List Word) :
    parseFrom false none (rebuilt (kept.pieces ++ behind)) = some (kept.value :: values) ↔
      parseFrom false none (rebuilt behind) = some values := by
  have text : kept.spaced.flatMap (fun block => block.text ++ [92, 32]) ++ kept.last.text =
      kept.text := rfl
  rw [rebuilt_pieces, if_neg last, List.singleton_append, rebuilt_plain plain, ← List.append_assoc,
    text, kept.parse, parseFrom_blank (by decide)]
  constructor
  · intro read
    obtain ⟨words, read', same⟩ := Option.map_eq_some_iff.mp read
    exact read'.trans (congrArg some (List.cons.inj same).2)
  · intro read
    rw [read]
    rfl

/-- A word with an operator behind an escaped space is not read again as it is meant. -/
theorem parseFrom_hidden (passed : Passed kept.text) {op : Operator}
    (stands : operator kept.last.text = some op) (values : List Word) :
    parseFrom false none (rebuilt (kept.pieces ++
      (partPieces parts ++ if blank then [[]] else []))) ≠ some (kept.value :: values) := by
  have own := operator_eq_some stands
  have last : kept.last.text ≠ [] := by
    rw [own]
    cases op <;> decide
  have inside : kept.last.text ∈ kept.pieces := by
    unfold Written.pieces
    rw [if_neg last]
    exact List.mem_append_right _ List.mem_cons_self
  have hides := kept.hidden passed inside fun passes => by
    have plain := passes.1
    rw [stands] at plain
    cases plain
  let open_ : Written := ⟨kept.spaced, ⟨[], nofun, nofun, rfl⟩, Or.inl hides.1⟩
  have text : open_.text = kept.spaced.flatMap fun block => block.text ++ [92, 32] :=
    List.append_nil _
  have value : kept.value = open_.value ++ op.text := by
    rw [← own]
    exact congrArg (· ++ kept.last.text) (List.append_nil _).symm
  have solid : ∀ arg ∈ (partPieces parts ++ if blank then [[]] else []).tail,
      ∀ byte ∈ arg, isSpace byte = false := fun arg among =>
    partPieces_end_solid parts blank arg (List.mem_of_mem_tail among)
  rw [rebuilt_pieces, if_neg last, List.singleton_append, own, rebuilt_tail, ← text, open_.parse,
    value]
  exact parseFrom_operator solid open_.value op values

end

/-- The words that are read again are those of the command exactly when no operator stands behind an
escaped space and none but the last word ends in one. -/
theorem parseFrom_rebuilt_iff (parts : List Part) (blank : Bool) :
    parseFrom false none (rebuilt (partPieces parts ++ if blank then [[]] else [])) =
        some ((partWords parts).map Written.value) ↔
      NoOperator (partWords parts) ∧ SpaceAtEnd (partWords parts) := by
  induction parts with
  | nil =>
    have right : NoOperator [] ∧ SpaceAtEnd [] := ⟨nofun, nofun⟩
    refine iff_of_true ?_ right
    cases blank <;> rfl
  | cons part parts ih =>
    cases part with
    | redirection op file nonempty passed =>
      have dropped := rebuilt_operator op file.text
        (partPieces parts ++ if blank then [[]] else [])
      rw [← dropped] at ih
      exact ih
    | word kept passed =>
      have pieces : partPieces (.word kept passed :: parts) ++ (if blank then [[]] else []) =
          kept.pieces ++ (partPieces parts ++ if blank then [[]] else []) :=
        List.append_assoc kept.pieces (partPieces parts) _
      change _ = some (kept.value :: (partWords parts).map Written.value) ↔
        NoOperator (kept :: partWords parts) ∧ SpaceAtEnd (kept :: partWords parts)
      rw [pieces, noOperator_cons, operator_pieces_iff, spaceAtEnd_cons]
      by_cases last : kept.last.text = []
      · rw [parseFrom_space_iff kept parts blank last, last]
        constructor
        · intro single
          rw [single]
          exact ⟨⟨operator_nil, nofun⟩, Or.inl rfl, nofun⟩
        · intro right
          exact right.2.1.resolve_right (not_not.mpr rfl)
      · cases stands : operator kept.last.text with
        | none =>
          rw [parseFrom_plain_iff kept last stands, ih]
          simp [last]
        | some op =>
          have hidden := parseFrom_hidden kept parts blank passed stands
            ((partWords parts).map Written.value)
          exact iff_of_false hidden fun right => by cases right.1.1

end TinyTools.Shell
