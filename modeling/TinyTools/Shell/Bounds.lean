import TinyTools.Lib.Words
import TinyTools.Shell.Buffers

/-!
# The bounds of the buffers

`newBuffer` is as long as `buffer`, but a space is put behind the last word, too. What is saved at
blanks and redirections makes room for it, so only a line of the greatest length on which nothing is
saved is rebuilt past the end of the array: its NUL is the byte too many.
-/

namespace TinyTools.Shell

open TinyTools.Lib

/-- No blank of the rest of a line stands at its begin or behind another blank. -/
def dense : Bool → Bytes → Bool
  | _, [] => true
  | opened, byte :: rest =>
    if isSpace byte then opened && dense false rest else dense true rest

/-- A line of the greatest length, without two blanks in a row, a blank at its begin and
redirections. -/
structure Tight (text : Bytes) : Prop where
  /-- Its length. -/
  full : text.length = 999
  /-- Its blanks. -/
  single : dense false text = true
  /-- Its words. -/
  plain : ∀ piece ∈ text.splitOnP isSpace, operator piece = none

/-- What the loops of `main` and `parseLine` do with a line in the buffer, whatever the arrays held
before: all writes stay in the arrays, and `parseLine` ends, for which it needs no byte behind the
final NUL. -/
def StaysInBounds (line : Bytes) : Prop :=
  ∀ (stale buffer word : Bytes) (garbage : Option Word), (line ++ 0 :: stale).length = MAXLINE →
    buffer.length = MAXLINE → word.length = MAXLINE → ∃ args stored pos pargv,
      collectArgs MAXLINE (line ++ 0 :: stale) = some args ∧
        rebuild args buffer = some (stored, pos) ∧
          parseLineIn garbage word (stored.take (pos + 1)) = some pargv

/-! ## The length of the rebuilt line -/

/-- The squeezed line is longer than the line exactly when no blank is saved. -/
theorem squeezed_length_iff (opened : Bool) (text : Bytes) :
    (squeezed opened text).length = text.length + 1 ↔ dense opened text = true := by
  induction text generalizing opened with
  | nil => exact iff_of_true rfl rfl
  | cons byte rest ih =>
    cases blank : isSpace byte with
    | true =>
      have bound := squeezed_length false rest
      have tail := ih false
      rw [squeezed_blank blank, dense, if_pos blank]
      cases opened with
      | true =>
        rw [Bool.true_and, ← tail, if_pos rfl, List.length_append, List.length_singleton,
          List.length_cons]
        omega
      | false =>
        rw [Bool.false_and, if_neg Bool.false_ne_true, List.nil_append, List.length_cons]
        exact iff_of_false (by omega) Bool.false_ne_true
    | false =>
      rw [squeezed_byte blank, dense, if_neg (by rw [blank]; exact Bool.false_ne_true), ← ih true,
        List.length_cons, List.length_cons]
      omega

/-- The words of a line where no blank is saved are what stands between its blanks. -/
theorem splitFrom_dense (word : Option Word) {text : Bytes}
    (single : dense word.isSome text = true) :
    splitFrom word text = (text.splitOnP isSpace).modifyHead (word.getD [] ++ ·) := by
  induction text generalizing word with
  | nil => cases word <;> simp [splitFrom]
  | cons byte rest ih =>
    rw [List.splitOnP_cons_eq_if_modifyHead]
    cases blank : isSpace byte with
    | true =>
      rw [dense, if_pos blank, Bool.and_eq_true] at single
      cases word with
      | none => exact absurd single.1 Bool.false_ne_true
      | some word =>
        have tail := ih none single.2
        rw [splitFrom, if_pos blank, tail, if_pos rfl, List.modifyHead_cons]
        simp only [Option.getD_some, List.append_nil, Option.getD_none, List.nil_append]
        exact congrArg _ (congrFun List.modifyHead_id _)
    | false =>
      have stays : ¬ isSpace byte = true := by
        rw [blank]
        exact Bool.false_ne_true
      rw [dense, if_neg stays] at single
      have tail (word : Word) := ih (some word) single
      cases word with
      | none =>
        rw [splitFrom, if_neg stays, tail, if_neg Bool.false_ne_true, List.modifyHead_modifyHead]
        rfl
      | some word =>
        rw [splitFrom, if_neg stays, tail, if_neg Bool.false_ne_true, List.modifyHead_modifyHead]
        simp only [Option.getD_some, List.append_assoc, List.singleton_append]
        rfl

/-- The words of such a line, unless it is empty. -/
theorem splitLine_dense {text : Bytes} (some_ : text ≠ []) (single : dense false text = true) :
    splitLine text = text.splitOnP isSpace := by
  rw [splitLine, if_neg some_, splitFrom_dense none single]
  exact congrFun List.modifyHead_id _

/-- The rebuilt line is a part of the words with spaces behind them. -/
theorem rebuilt_sublist (args : List Word) : (rebuilt args).Sublist (args.flatMap (· ++ [32])) := by
  induction args using rebuilt.induct with
  | case1 => exact List.Sublist.refl _
  | case2 word dropped =>
    rw [rebuilt, if_pos dropped]
    exact List.nil_sublist _
  | case3 word kept =>
    rw [rebuilt, if_neg kept, List.flatMap_singleton]
  | case4 word next rest dropped ih =>
    rw [rebuilt, if_pos dropped, List.flatMap_cons, List.flatMap_cons, ← List.append_assoc]
    exact ih.trans (List.sublist_append_right _ _)
  | case5 word next rest kept ih =>
    rw [rebuilt, if_neg kept, List.flatMap_cons, List.append_assoc]
    exact (List.Sublist.refl word).append (ih.cons_cons 32)

/-- An operator saves at least two bytes. -/
theorem rebuilt_operator_length {args : List Word} {word : Word} (inside : word ∈ args)
    (stands : (operator word).isSome) :
    (rebuilt args).length + 2 ≤ (args.flatMap (· ++ [32])).length := by
  have longer {op : Word} (stands : (operator op).isSome) : 1 ≤ op.length := by
    obtain ⟨found, stands⟩ := Option.isSome_iff_exists.mp stands
    rw [operator_eq_some stands]
    cases found <;> decide
  induction args using rebuilt.induct with
  | case1 => cases inside
  | case2 first dropped =>
    have some_ := longer dropped
    rw [rebuilt, if_pos dropped, List.flatMap_singleton, length_snoc, List.length_nil]
    omega
  | case3 first kept =>
    rw [List.mem_singleton.mp inside] at stands
    exact absurd stands kept
  | case4 first next rest dropped ih =>
    have some_ := longer dropped
    have part := (rebuilt_sublist rest).length_le
    rw [rebuilt, if_pos dropped, List.flatMap_cons, List.flatMap_cons, List.length_append,
      length_snoc, List.length_append]
    omega
  | case5 first next rest kept ih =>
    have later : word ∈ next :: rest := by
      cases inside with
      | head => exact absurd stands kept
      | tail _ later => exact later
    have tail := ih later
    rw [rebuilt, if_neg kept, List.flatMap_cons, List.length_append, List.length_append,
      List.length_cons, length_snoc]
    omega

/-- A line is rebuilt with its NUL in the array exactly when it is not tight. -/
theorem rebuilt_short_iff {text : Bytes} (short : text.length ≤ 999) :
    (rebuilt (splitLine text)).length < MAXLINE ↔ ¬ Tight text := by
  unfold MAXLINE
  by_cases some_ : text = []
  · rw [some_]
    exact iff_of_true (by decide) fun tight => absurd tight.full (by decide)
  have words : (splitLine text).flatMap (· ++ [32]) = squeezed false text := by
    rw [splitLine, if_neg some_, flatMap_splitFrom]
    rfl
  have part := (rebuilt_sublist (splitLine text)).length_le
  have bound := squeezed_length false text
  rw [words] at part
  constructor
  · intro fits tight
    have single := (squeezed_length_iff false text).mpr tight.single
    have plain : ∀ word ∈ splitLine text, operator word = none := by
      rw [splitLine_dense some_ tight.single]
      exact tight.plain
    have full := tight.full
    rw [rebuilt_splitLine some_ plain] at fits
    omega
  · intro loose
    by_contra long
    have full : text.length = 999 := by omega
    have single := (squeezed_length_iff false text).mp (by omega)
    apply loose ⟨full, single, fun piece inside => ?_⟩
    rw [← splitLine_dense some_ single] at inside
    by_contra stands
    have saved := rebuilt_operator_length inside (Option.isSome_iff_ne_none.mpr stands)
    rw [words] at saved
    omega

/-! ## What is read from the rebuilt line -/

/-- A rebuilt line is empty or ends with a space. -/
theorem rebuilt_ends (args : List Word) :
    rebuilt args = [] ∨ ∃ front, rebuilt args = front ++ [32] := by
  induction args using rebuilt.induct with
  | case1 => exact Or.inl rfl
  | case2 word dropped =>
    rw [rebuilt, if_pos dropped]
    exact Or.inl rfl
  | case3 word kept =>
    rw [rebuilt, if_neg kept]
    exact Or.inr ⟨word, rfl⟩
  | case4 word next rest dropped ih =>
    rw [rebuilt, if_pos dropped]
    exact ih
  | case5 word next rest kept ih =>
    rw [rebuilt, if_neg kept]
    apply Or.inr
    cases ih with
    | inl empty =>
      rw [empty]
      exact ⟨word, rfl⟩
    | inr ends =>
      obtain ⟨front, shape⟩ := ends
      rw [shape]
      exact ⟨word ++ 32 :: front, by rw [List.append_assoc, List.cons_append]⟩

/-- A rebuilt line is read to its end. -/
theorem parseFrom_rebuilt (args : List Word) :
    ∃ words, parseFrom false none (rebuilt args) = some words := by
  cases rebuilt_ends args with
  | inl empty =>
    rw [empty]
    exact ⟨[], rfl⟩
  | inr ends =>
    obtain ⟨front, shape⟩ := ends
    rw [shape]
    exact parseFrom_closed false none front

/-- No word is longer than the text that it is read from. -/
theorem parseFrom_length_le {text : Bytes} {words : List Word}
    (read : parseFrom false none text = some words) :
    ∀ word ∈ words, word.length ≤ text.length := by
  induction length : text.length using Nat.strong_induction_on generalizing text words with
  | _ length ih =>
  have part := List.dropWhile_suffix isSpace (l := text)
  have start := List.head?_dropWhile_not isSpace text
  rw [← parseFrom_skip] at read
  cases shape : text.dropWhile isSpace with
  | nil =>
    rw [shape] at read
    rw [← Option.some.inj read]
    exact nofun
  | cons byte rest =>
    rw [shape] at read start part
    have first : isSpace byte = false := by simpa using start
    rw [parseFrom_open first] at read
    obtain ⟨more, behind, words', reads, rfl, later⟩ := exists_reads read
    have whole := part.length_le
    have room := reads.length_le
    have less := reads.rest_lt first
    have tail := ih behind.length (by omega) later rfl
    intro word inside
    cases inside with
    | head =>
      rw [List.nil_append]
      omega
    | tail _ among =>
      have short := tail word among
      omega

/-- A squeezed line has only bytes of the line, and spaces. -/
theorem mem_squeezed {byte : UInt8} {opened : Bool} {text : Bytes}
    (inside : byte ∈ squeezed opened text) : byte = 32 ∨ byte ∈ text := by
  induction text generalizing opened with
  | nil => exact Or.inl (List.mem_singleton.mp inside)
  | cons first rest ih =>
    have goesOn {opened : Bool} (later : byte ∈ squeezed opened rest) :
        byte = 32 ∨ byte ∈ first :: rest := (ih later).imp_right (List.mem_cons_of_mem first)
    cases blank : isSpace first with
    | true =>
      rw [squeezed_blank blank] at inside
      cases List.mem_append.mp inside with
      | inl space =>
        split_ifs at space
        · exact Or.inl (List.mem_singleton.mp space)
        · cases space
      | inr later => exact goesOn later
    | false =>
      rw [squeezed_byte blank] at inside
      cases inside with
      | head => exact Or.inr (.head _)
      | tail _ later => exact goesOn later

/-- A rebuilt line has no NUL. -/
theorem rebuilt_noNul {text : Bytes} (noNul : ∀ byte ∈ text, byte ≠ 0) :
    ∀ byte ∈ rebuilt (splitLine text), byte ≠ 0 := by
  intro byte inside
  by_cases some_ : text = []
  · rw [some_] at inside
    cases inside
  have among := (rebuilt_sublist (splitLine text)).subset inside
  rw [splitLine, if_neg some_, flatMap_splitFrom] at among
  cases mem_squeezed among with
  | inl space =>
    rw [space]
    decide
  | inr own => exact noNul byte own

/-- The string in the buffer ends at the first NUL. -/
theorem exists_beyond (line stale : Bytes) :
    ∃ beyond, line ++ 0 :: stale = cString line ++ 0 :: beyond := by
  obtain ⟨tail, split, ends⟩ := exists_tail line
  cases tail with
  | nil =>
    refine ⟨stale, ?_⟩
    rw [List.append_nil] at split
    rw [← split]
  | cons byte tail =>
    refine ⟨tail ++ 0 :: stale, ?_⟩
    have nul : byte = 0 := ends byte rfl
    rw [nul] at split
    rw [← List.cons_append, ← List.append_assoc, ← split]

/-- The loops stay in the arrays exactly when the rebuilt line fits in `newBuffer`. -/
theorem staysInBounds_short_iff {line : Bytes} (short : line.length ≤ 999) :
    StaysInBounds line ↔ (rebuilt (splitLine (cString line))).length < MAXLINE := by
  have noNul := cString_free line
  have less : (cString line).length < MAXLINE := by
    have part := (List.takeWhile_prefix (· != 0) (l := line)).length_le
    unfold MAXLINE cString
    omega
  have collected {stale : Bytes} :
      collectArgs MAXLINE (line ++ 0 :: stale) = some (splitLine (cString line)) := by
    obtain ⟨beyond, shape⟩ := exists_beyond line stale
    rw [shape]
    exact collectArgs_eq noNul less beyond less
  have zeros : (List.replicate MAXLINE (0 : UInt8)).length = MAXLINE := List.length_replicate
  constructor
  · intro stays
    have room : (line ++ 0 :: List.replicate (999 - line.length) 0).length = MAXLINE := by
      rw [List.length_append, List.length_cons, List.length_replicate, MAXLINE]
      omega
    obtain ⟨args, stored, pos, pargv, first, second, -⟩ := stays _ _ _ none room zeros zeros
    rw [collected] at first
    rw [← Option.some.inj first, rebuild_eq, zeros] at second
    by_contra long
    rw [if_neg long] at second
    cases second
  · intro fits stale buffer word garbage _ size room
    obtain ⟨words, read⟩ := parseFrom_rebuilt (splitLine (cString line))
    have parsed := parseLineIn_eq garbage (rebuilt_noNul noNul) read [] word fun own inside => by
      have bound := parseFrom_length_le read own inside
      omega
    refine ⟨splitLine (cString line), overwrite buffer (rebuilt (splitLine (cString line)) ++ [0]),
      (rebuilt (splitLine (cString line))).length, CommandLine.ofWords words, collected, ?_, ?_⟩
    · rw [rebuild_eq, size, if_pos fits]
    · rw [overwrite, List.take_left' (length_snoc _ _)]
      exact parsed

/-- For every line that fits in the buffer, the loops stay in the arrays exactly when the string of
the line is not tight. -/
theorem staysInBounds_iff (line : Bytes) (short : line.length ≤ 999) :
    StaysInBounds line ↔ ¬ Tight (cString line) :=
  (staysInBounds_short_iff short).trans
    (rebuilt_short_iff ((List.takeWhile_prefix (· != 0)).length_le.trans short))

/-- A line with a redirection. -/
theorem staysInBounds_iff_cat :
    StaysInBounds (bytes "cat < f") ↔ ¬ Tight (cString (bytes "cat < f")) :=
  staysInBounds_iff (bytes "cat < f") (by decide)

/-- The NUL behind 999 letters and a space is written past the end. -/
theorem not_staysInBounds_letters : ¬ StaysInBounds (List.replicate 999 97) := by
  intro stays
  have string : cString (List.replicate 999 97) = List.replicate 999 97 := by decide +kernel
  have tight : Tight (List.replicate 999 97) :=
    ⟨List.length_replicate, by decide +kernel, by decide +kernel⟩
  have fits := (staysInBounds_short_iff List.length_replicate.le).mp stays
  rw [string] at fits
  exact (rebuilt_short_iff List.length_replicate.le).mp fits tight

end TinyTools.Shell
