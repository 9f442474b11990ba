import TinyTools.Shell.Line

/-!
# Written words

A word that is to hold spaces is written with a backslash in front of each of them. On the line it
is a row of blocks without blanks, with an escaped space behind each but the last. Cutting a line at
its blanks takes such a word to pieces: every block but the last keeps the backslash behind it.
-/

namespace TinyTools.Shell

open TinyTools.Lib

/-- A backslash waits for the byte behind a text, if one did or did not wait in front of it. -/
def waits : Bool → Bytes → Bool
  | waiting, [] => waiting
  | waiting, byte :: rest => waits (!waiting && byte == 92) rest

/-- Bytes of a word between its spaces. -/
structure Block where
  /-- The bytes. -/
  text : Bytes
  /-- There are no blanks among them. -/
  solid : ∀ byte ∈ text, isSpace byte = false
  /-- There is no NUL among them. -/
  noNul : ∀ byte ∈ text, byte ≠ 0
  /-- No backslash waits for what follows. -/
  complete : waits false text = false

/-- A word as it is written. -/
structure Written where
  /-- The blocks in front of escaped spaces. -/
  spaced : List Block
  /-- The block behind the last of these. -/
  last : Block
  /-- The word is not empty. -/
  nonempty : spaced ≠ [] ∨ last.text ≠ []

/-- The bytes on the line. -/
def Written.text (word : Written) : Bytes :=
  word.spaced.flatMap (fun block => block.text ++ [92, 32]) ++ word.last.text

/-- The word that is meant. -/
def Written.value (word : Written) : Word :=
  word.spaced.flatMap (fun block => block.text ++ [32]) ++ word.last.text

/-- The pieces between the blanks of the line. -/
def Written.pieces (word : Written) : List Word :=
  word.spaced.map (fun block => block.text ++ [92]) ++
    if word.last.text = [] then [] else [word.last.text]

/-- Words spread over a line: there are blanks between them, and there may be blanks behind. -/
inductive Spread : List Written → Bytes → Prop
  /-- The last word. -/
  | last (word : Written) (behind : Bytes) (blank : ∀ byte ∈ behind, isSpace byte) :
    Spread [word] (word.text ++ behind)
  /-- A word in front of others. -/
  | cons (word : Written) {gap : Bytes} (some_ : gap ≠ []) (blank : ∀ byte ∈ gap, isSpace byte)
    {words : List Written} {text : Bytes} (rest : Spread words text) :
    Spread (word :: words) (word.text ++ (gap ++ text))

/-- A line on which words are written, possibly behind blanks. -/
inductive Writes (words : List Written) : Bytes → Prop
  /-- Blanks and the words. -/
  | intro {leading text : Bytes} (blank : ∀ byte ∈ leading, isSpace byte)
    (spread : Spread words text) : Writes words (leading ++ text)

/-- The last byte of a line is a blank. -/
def endsBlank (text : Bytes) : Bool := (text.getLast?.map isSpace).getD false

/-! ## Bytes of written words -/

/-- A written word is not empty. -/
theorem Written.text_ne_nil (word : Written) : word.text ≠ [] := by
  intro empty
  obtain ⟨front, last⟩ := List.append_eq_nil_iff.mp empty
  cases word.nonempty with
  | inl spaced =>
    obtain ⟨block, blocks, shape⟩ := List.exists_cons_of_ne_nil spaced
    rw [shape, List.flatMap_cons, List.append_assoc] at front
    exact absurd front (by simp)
  | inr some_ => exact some_ last

/-- A blank is no NUL. -/
theorem blank_ne_nul {byte : UInt8} (blank : isSpace byte) : byte ≠ 0 := by
  intro same
  rw [same] at blank
  exact absurd blank (by decide)

/-- A written word holds no NUL. -/
theorem Written.noNul (word : Written) : ∀ byte ∈ word.text, byte ≠ 0 := by
  intro byte inside
  cases List.mem_append.mp inside with
  | inl front =>
    obtain ⟨block, -, among⟩ := List.mem_flatMap.mp front
    cases List.mem_append.mp among with
    | inl own => exact block.noNul byte own
    | inr escaped =>
      intro same
      rw [same] at escaped
      exact absurd escaped (by decide)
  | inr last => exact word.last.noNul byte last

/-- Words that are spread over a line hold no NUL. -/
theorem Spread.noNul {words : List Written} {text : Bytes} (spread : Spread words text) :
    ∀ byte ∈ text, byte ≠ 0 := by
  induction spread with
  | last word behind blank =>
    intro byte inside
    cases List.mem_append.mp inside with
    | inl own => exact word.noNul byte own
    | inr gap => exact blank_ne_nul (blank byte gap)
  | cons word some_ blank rest ih =>
    intro byte inside
    cases List.mem_append.mp inside with
    | inl own => exact word.noNul byte own
    | inr more =>
      cases List.mem_append.mp more with
      | inl gap => exact blank_ne_nul (blank byte gap)
      | inr later => exact ih byte later

/-- A line of words is the string that the shell reads. -/
theorem Writes.cString {words : List Written} {line : Bytes} (writes : Writes words line) :
    cString line = line := by
  cases writes with
  | intro blank spread =>
    apply List.takeWhile_eq_self_iff.mpr
    intro byte inside
    rw [bne_iff_ne]
    cases List.mem_append.mp inside with
    | inl gap => exact blank_ne_nul (blank byte gap)
    | inr own => exact spread.noNul byte own

/-! ## Cutting at blanks -/

/-- Blanks between words are passed over. -/
theorem splitFrom_blanks {blanks : Bytes} (blank : ∀ byte ∈ blanks, isSpace byte) (rest : Bytes) :
    splitFrom none (blanks ++ rest) = splitFrom none rest := by
  induction blanks with
  | nil => rfl
  | cons byte blanks ih =>
    rw [List.cons_append, splitFrom, if_pos (blank byte List.mem_cons_self)]
    exact ih fun other inside => blank other (.tail _ inside)

/-- Other bytes go into the word. -/
theorem splitFrom_solid {text : Bytes} (solid : ∀ byte ∈ text, isSpace byte = false)
    (some_ : text ≠ []) (word : Option Word) (rest : Bytes) :
    splitFrom word (text ++ rest) = splitFrom (some (word.getD [] ++ text)) rest := by
  induction text generalizing word with
  | nil => exact absurd rfl some_
  | cons byte text ih =>
    have stays : ¬ isSpace byte = true := by
      rw [solid byte List.mem_cons_self]
      exact Bool.false_ne_true
    have first : splitFrom word (byte :: (text ++ rest)) =
        splitFrom (some (word.getD [] ++ [byte])) (text ++ rest) := by
      cases word <;> simp [splitFrom, stays]
    rw [List.cons_append, first]
    cases text with
    | nil => rfl
    | cons next text =>
      rw [ih (fun other inside => solid other (.tail _ inside)) (List.cons_ne_nil _ _)]
      simp

/-- Every block in front of an escaped space is cut off with its backslash. -/
theorem splitFrom_spaced (blocks : List Block) (rest : Bytes) :
    splitFrom none (blocks.flatMap (fun block => block.text ++ [92, 32]) ++ rest) =
      blocks.map (fun block => block.text ++ [92]) ++ splitFrom none rest := by
  induction blocks with
  | nil => rfl
  | cons block blocks ih =>
    have solid : ∀ byte ∈ block.text ++ [92], isSpace byte = false := by
      intro byte inside
      cases List.mem_append.mp inside with
      | inl own => exact block.solid byte own
      | inr escape =>
        rw [List.mem_singleton.mp escape]
        rfl
    have cut := splitFrom_solid solid (by simp) none
      (32 :: (blocks.flatMap (fun block => block.text ++ [92, 32]) ++ rest))
    rw [splitFrom, if_pos (by decide), ih] at cut
    simpa using cut

/-- The pieces of a word in front of a blank. -/
theorem splitFrom_written (word : Written) {byte : UInt8} (blank : isSpace byte) (rest : Bytes) :
    splitFrom none (word.text ++ byte :: rest) = word.pieces ++ splitFrom none rest := by
  unfold Written.text Written.pieces
  rw [List.append_assoc, splitFrom_spaced, List.append_assoc]
  apply congrArg
  by_cases last : word.last.text = []
  · rw [last, if_pos rfl, List.nil_append, splitFrom, if_pos blank, List.nil_append]
  · rw [if_neg last, splitFrom_solid word.last.solid last, splitFrom, if_pos blank]
    rfl

/-- The pieces of a word at the end of a line: an escaped space leaves an empty word behind it. -/
theorem splitFrom_written_end (word : Written) :
    splitFrom none word.text = word.pieces ++ if word.last.text = [] then [[]] else [] := by
  have cut := splitFrom_spaced word.spaced word.last.text
  unfold Written.text Written.pieces
  rw [cut, List.append_assoc]
  apply congrArg
  by_cases last : word.last.text = []
  · rw [last]
    rfl
  · have own := splitFrom_solid word.last.solid last none []
    rw [List.append_nil] at own
    rw [own, if_neg last, if_neg last]
    rfl

/-! ## The end of the line -/

/-- The last byte of a text is that of a part of it that is not empty. -/
theorem endsBlank_append (front : Bytes) {text : Bytes} (some_ : text ≠ []) :
    endsBlank (front ++ text) = endsBlank text := by
  unfold endsBlank
  rw [List.getLast?_append_of_ne_nil _ some_]

/-- The last byte of blanks is one. -/
theorem endsBlank_blanks {blanks : Bytes} (some_ : blanks ≠ [])
    (blank : ∀ byte ∈ blanks, isSpace byte) : endsBlank blanks = true := by
  unfold endsBlank
  rw [List.getLast?_eq_some_getLast some_]
  exact blank _ (List.getLast_mem some_)

/-- A written word ends with a blank exactly when this is an escaped space. -/
theorem endsBlank_written (word : Written) :
    endsBlank word.text = decide (word.last.text = []) := by
  unfold Written.text
  by_cases last : word.last.text = []
  · have spaced := word.nonempty.resolve_right (not_not.mpr last)
    obtain ⟨blocks, block, shape⟩ := List.eq_nil_or_concat word.spaced |>.resolve_left spaced
    rw [last, List.append_nil, shape, List.concat_eq_append, List.flatMap_append]
    simp [endsBlank]
    decide
  · rw [endsBlank_append _ last, decide_eq_false last]
    unfold endsBlank
    rw [List.getLast?_eq_some_getLast last]
    exact word.last.solid _ (List.getLast_mem last)

/-- Words that are spread over a line are not nothing. -/
theorem Spread.ne_nil {words : List Written} {text : Bytes} (spread : Spread words text) :
    text ≠ [] := by
  cases spread with
  | last word => exact List.append_ne_nil_of_left_ne_nil word.text_ne_nil _
  | cons word => exact List.append_ne_nil_of_left_ne_nil word.text_ne_nil _

/-- The words between the blanks of a line are the pieces of its words, and an empty one behind a
blank at its end. -/
theorem Spread.split {words : List Written} {text : Bytes} (spread : Spread words text) :
    splitFrom none text =
      words.flatMap Written.pieces ++ if endsBlank text then [[]] else [] := by
  induction spread with
  | last word behind blank =>
    rw [List.flatMap_singleton]
    cases behind with
    | nil =>
      rw [List.append_nil, splitFrom_written_end, endsBlank_written]
      simp
    | cons byte behind =>
      have blanks := splitFrom_blanks (fun other inside => blank other (.tail _ inside)) []
      rw [List.append_nil] at blanks
      rw [splitFrom_written word (blank byte List.mem_cons_self), blanks,
        endsBlank_append _ (List.cons_ne_nil _ _), endsBlank_blanks (List.cons_ne_nil _ _) blank]
      rfl
  | @cons word gap some_ blank words text rest ih =>
    have ends : endsBlank (word.text ++ (gap ++ text)) = endsBlank text := by
      rw [← List.append_assoc, endsBlank_append _ rest.ne_nil]
    rw [ends, List.flatMap_cons, List.append_assoc, ← ih]
    obtain ⟨byte, others, rfl⟩ := List.exists_cons_of_ne_nil some_
    rw [List.cons_append, splitFrom_written word (blank byte List.mem_cons_self),
      splitFrom_blanks fun other inside => blank other (.tail _ inside)]

/-- The words between the blanks of a line on which words are written. -/
theorem Writes.split {words : List Written} {line : Bytes} (writes : Writes words line) :
    splitLine line = words.flatMap Written.pieces ++ if endsBlank line then [[]] else [] := by
  cases writes with
  | intro blank spread =>
    have some_ := spread.ne_nil
    rw [splitLine, if_neg (List.append_ne_nil_of_right_ne_nil _ some_), splitFrom_blanks blank,
      endsBlank_append _ some_, spread.split]

/-! ## Reading with backslashes -/

/-- Bytes without blanks go into the word as they are, with the backslash that waits for them. -/
theorem parseFrom_solid {text : Bytes} (solid : ∀ byte ∈ text, isSpace byte = false)
    (some_ : text ≠ []) {waiting : Bool} (complete : waits waiting text = false)
    (word : Option Word) (rest : Bytes) :
    parseFrom waiting word (text ++ rest) =
      parseFrom false (some (word.getD [] ++ ((if waiting then [92] else []) ++ text))) rest := by
  induction text generalizing waiting word with
  | nil => exact absurd rfl some_
  | cons byte text ih =>
    have tail := fun other inside => solid other (.tail byte inside)
    have plain := solid byte List.mem_cons_self
    have goesOn (word : Option Word) (more : Bytes) (done : waits false text = false) :
        parseFrom false (some (word.getD [] ++ more)) (text ++ rest) =
          parseFrom false (some (word.getD [] ++ (more ++ text))) rest := by
      by_cases empty : text = []
      · rw [empty, List.append_nil, List.nil_append]
      · rw [ih tail empty done]
        simp
    cases waiting with
    | true =>
      have notSpace : byte ≠ 32 := by
        intro same
        rw [same] at plain
        exact absurd plain (by decide)
      rw [List.cons_append, parseFrom_escaped, if_neg notSpace, goesOn word _ complete]
      rfl
    | false =>
      by_cases escape : byte = 92
      · rw [escape] at complete ⊢
        have more : text ≠ [] := by
          intro empty
          rw [empty] at complete
          exact absurd complete (by decide)
        have done : waits true text = false := complete
        rw [List.cons_append, parseFrom_backslash, ih tail more done]
        rfl
      · have done : waits false text = false := by
          rw [waits, beq_false_of_ne escape] at complete
          exact complete
        rw [List.cons_append, parseFrom_byte escape plain, goesOn word _ done]
        rfl

/-- Bytes in front of an escaped space go into the word with the space. -/
theorem parseFrom_block {text : Bytes} (solid : ∀ byte ∈ text, isSpace byte = false)
    (complete : waits false text = false) (word : Option Word) (rest : Bytes) :
    parseFrom false word (text ++ 92 :: 32 :: rest) =
      parseFrom false (some (word.getD [] ++ (text ++ [32]))) rest := by
  by_cases empty : text = []
  · rw [empty]
    rfl
  · rw [parseFrom_solid solid empty complete, parseFrom_backslash, parseFrom_escaped, if_pos rfl]
    simp

/-- Blocks in front of escaped spaces go into the word with the spaces. -/
theorem parseFrom_spaced (blocks : List Block) (word : Word) (rest : Bytes) :
    parseFrom false (some word)
        (blocks.flatMap (fun block => block.text ++ [92, 32]) ++ rest) =
      parseFrom false (some (word ++ blocks.flatMap (fun block => block.text ++ [32]))) rest := by
  induction blocks generalizing word with
  | nil => rw [List.flatMap_nil, List.flatMap_nil, List.append_nil, List.nil_append]
  | cons block blocks ih =>
    have first := parseFrom_block block.solid block.complete (some word)
      (blocks.flatMap (fun block => block.text ++ [92, 32]) ++ rest)
    rw [ih] at first
    simpa using first

/-- A last block goes into the word. -/
theorem parseFrom_last (block : Block) (word : Word) (rest : Bytes) :
    parseFrom false (some word) (block.text ++ rest) =
      parseFrom false (some (word ++ block.text)) rest := by
  by_cases empty : block.text = []
  · rw [empty, List.append_nil, List.nil_append]
  · exact parseFrom_solid block.solid empty block.complete (some word) rest

/-- A written word is read as the word that is meant. -/
theorem Written.parse (word : Written) (rest : Bytes) :
    parseFrom false none (word.text ++ rest) = parseFrom false (some word.value) rest := by
  unfold text value
  rw [List.append_assoc]
  cases shape : word.spaced with
  | nil =>
    have some_ := word.nonempty.resolve_left (not_not.mpr shape)
    exact parseFrom_solid word.last.solid some_ word.last.complete none rest
  | cons block blocks =>
    have first := parseFrom_block block.solid block.complete none
      (blocks.flatMap (fun block => block.text ++ [92, 32]) ++ (word.last.text ++ rest))
    rw [parseFrom_spaced, parseFrom_last] at first
    simpa using first

end TinyTools.Shell
