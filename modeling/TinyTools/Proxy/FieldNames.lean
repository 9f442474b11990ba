import TinyTools.Proxy.Filing

/-!
# Fields by their name

A header line names its field in front of its first colon. The header follows these names as long
as no line is filed under a field that it merely mentions, or sets what is set already, and no
announced length exceeds an `int`.
-/

namespace TinyTools.Proxy

open TinyTools.Lib

/-- The name of a line's field, in small letters: the text in front of the first colon. -/
def fieldName (line : Bytes) : Option Bytes :=
  if 58 ∈ line then some ((line.takeWhile (· != 58)).map toLower) else none

/-- The name of a field, in small letters. -/
def Field.name (field : Field) : Bytes := (field.key.takeWhile (· != 58)).map toLower

/-- The line names this field. -/
def IsField (field : Field) (line : Bytes) : Prop := fieldName line = some field.name

instance (field : Field) (line : Bytes) : Decidable (IsField field line) :=
  inferInstanceAs (Decidable (_ = _))

/-- The member that belongs to a field is the same in two headers. -/
def Field.Same (h h' : HttpHeader) : Field → Prop
  | .connection => h'.persistent = h.persistent
  | .contentLength => h'.bodySize = h.bodySize
  | .transferEncoding => h'.chunked = h.chunked
  | .cacheControl => h'.cacheable = h.cacheable

/-- A line changes only the member of the header that belongs to the field it names. -/
def ChangesByName (h : HttpHeader) (line : Bytes) : Prop :=
  ∀ field : Field, ¬ field.Same h (h.appendLine line) → IsField field line

/-- The text of a line behind its first colon. -/
def fieldText (line : Bytes) : Bytes := (line.dropWhile (· != 58)).tail

/-- A word stands between blanks. -/
def IsPadded (word text : Bytes) : Prop :=
  ∃ front back, (∀ byte ∈ front ++ back, isSpace byte = true) ∧ text = front ++ word ++ back

/-- The line announces a length. -/
def IsLengthField (length : ℕ) (line : Bytes) : Prop :=
  IsField .contentLength line ∧ ∃ digits, digits ≠ [] ∧ (∀ byte ∈ digits, isDigit byte = true) ∧
    digitsValue 0 digits = length ∧ IsPadded digits (fieldText line)

/-- The line announces a length in the usual spelling, whatever ends it. -/
def IsLengthLine (length : ℕ) (line : Bytes) : Prop :=
  ∃ ending, (ending = bytes "\r\n" ∨ ending = bytes "\n" ∨ ending = []) ∧
    line = bytes "Content-Length: " ++ decimal length ++ ending

/-- Appended lines are classified by field name: each changes only what it names, and an announced
length is answered until another line of that name is appended. -/
structure FollowsNames (h : HttpHeader) (lines : List Bytes) : Prop where
  /-- Every line changes only what it names. -/
  changes : ∀ before line after, lines = before ++ line :: after →
    ChangesByName (h.appendLines before) line
  /-- A length is answered until another one is announced. -/
  length : ∀ before line after rest length, lines = before ++ line :: (after ++ rest) →
    IsLengthLine length line → length < 2 ^ 63 → (∀ later ∈ after, ¬ IsField .contentLength later) →
      (h.appendLines (before ++ line :: after)).getBodySize.toNat = length

/-- What a line that is filed under a field says is so already. -/
def SetsNothing (h : HttpHeader) (line : Bytes) : Field → Prop
  | .connection => ∀ value ∈ connectionValue (Field.connection.value line), h.persistent = value
  | .contentLength => h.bodySize = UInt64.ofInt (atoi (Field.contentLength.value line))
  | .transferEncoding =>
    hasCase (bytes "chunked") (Field.transferEncoding.value line) = true → h.chunked = true
  | .cacheControl => ∀ value ∈ cacheValue (Field.cacheControl.value line), h.cacheable = value

/-- A line is filed under the field it names, or says what is so already; a length that it announces
is an `int`. -/
structure Careful (h : HttpHeader) (line : Bytes) : Prop where
  /-- It is filed by its name, or says what is so already. -/
  filed_ : ∀ field, filed line = some field → IsField field line ∨ SetsNothing h line field
  /-- The length it announces fits. -/
  fits : ∀ length, IsLengthLine length line → length < 2 ^ 63 → length < 2 ^ 31

/-! ## One line -/

section

variable {h : HttpHeader} {line : Bytes}

/-- A member that a line may leave alone stays the same exactly when what the line says is so. -/
theorem getD_eq_iff {said : Option Bool} {before : Bool} :
    said.getD before = before ↔ ∀ value ∈ said, before = value := by
  cases said with
  | none => exact iff_of_true rfl fun value inside => absurd inside (Option.not_mem_none value)
  | some said =>
    simp only [Option.getD_some, Option.mem_some_iff, forall_eq']
    exact eq_comm

/-- A member stays the same unless the line is filed under its field and sets something. -/
theorem Field.same_iff (field : Field) :
    field.Same h (h.appendLine line) ↔ (filed line = some field → SetsNothing h line field) := by
  rw [HttpHeader.appendLine_eq]
  cases field with
  | connection => exact ite_eq_right_iff.trans (imp_congr_right fun _ => getD_eq_iff)
  | contentLength => exact ite_eq_right_iff.trans (imp_congr_right fun _ => eq_comm)
  | transferEncoding =>
    apply ite_eq_right_iff.trans
    apply imp_congr_right
    intro _
    change (_ || _) = _ ↔ (_ = true → _ = true)
    generalize hasCase (bytes "chunked") (Field.transferEncoding.value line) = found
    generalize h.chunked = before
    cases found <;> cases before <;> decide
  | cacheControl => exact ite_eq_right_iff.trans (imp_congr_right fun _ => getD_eq_iff)

/-- A line changes only what it names exactly when it is filed by its name or sets nothing. -/
theorem changesByName_iff : ChangesByName h line ↔
    ∀ field, filed line = some field → IsField field line ∨ SetsNothing h line field := by
  apply forall_congr'
  intro field
  rw [field.same_iff]
  tauto

end

/-! ## Lines with one colon -/

/-- The text of a key is its name and a colon. -/
theorem Field.key_lowered (field : Field) : field.key.map toLower = field.name ++ [58] := by
  cases field <;> decide

/-- No letter becomes a colon. -/
theorem toLower_colon {byte : UInt8} (colon : toLower byte = 58) : byte = 58 := by
  unfold toLower at colon
  split_ifs at colon with upper
  · have code := congrArg UInt8.toNat colon
    rw [UInt8.toNat_add] at code
    simp at code upper
    omega
  · exact colon

/-- Nothing becomes a colon when there was none. -/
theorem colon_lowered {text : Bytes} (none_ : 58 ∉ text) : 58 ∉ text.map toLower := by
  intro inside
  obtain ⟨byte, member, lowered⟩ := List.mem_map.mp inside
  exact none_ (toLower_colon lowered ▸ member)

section

variable {name text : Bytes} (plainName : 58 ∉ name) (plainText : 58 ∉ text)
include plainName plainText

/-- The key of a field occurs in a line with one colon when the line's name ends with that of the
field. -/
theorem hasCase_key_iff (field : Field) :
    hasCase field.key (name ++ 58 :: text) = true ↔ field.name <:+ name.map toLower := by
  have colon : toLower 58 = 58 := by decide
  unfold hasCase
  rw [strstr_isSome_iff, field.key_lowered, List.map_append, List.map_cons, colon]
  exact infix_marked (colon_lowered plainName) (colon_lowered plainText)

/-- A line with one colon is filed under the first field with whose name its own name ends. -/
theorem filed_eq (free : ∀ byte ∈ name ++ 58 :: text, byte ≠ 0) :
    filed (name ++ 58 :: text) =
      [.connection, .contentLength, .transferEncoding, .cacheControl].find? fun field : Field =>
        field.name.isSuffixOf (name.map toLower) := by
  have whole : cString (name ++ 58 :: text) = name ++ 58 :: text := by
    apply List.takeWhile_eq_self_iff.mpr
    intro byte inside
    exact bne_iff_ne.mpr (free byte inside)
  unfold filed
  rw [whole]
  congr 1
  funext field
  rw [Bool.eq_iff_iff, hasCase_key_iff plainName plainText, List.isSuffixOf_iff_suffix]

end

/-- A line that names a field has that name in front of its first colon. -/
theorem IsField.split {field : Field} {line : Bytes} (named : IsField field line) :
    ∃ name, 58 ∉ name ∧ name.map toLower = field.name ∧ line = name ++ 58 :: fieldText line := by
  unfold IsField fieldName at named
  split_ifs at named with colon
  obtain ⟨name, text, rfl, plain⟩ := List.eq_append_cons_of_mem colon
  have all : ∀ byte ∈ name, (byte != 58) = true := by
    intro byte inside
    rw [bne_iff_ne]
    intro same
    exact plain (same ▸ inside)
  have front : (name ++ 58 :: text).takeWhile (· != 58) = name := by
    rw [List.takeWhile_append_of_pos all, List.takeWhile_cons_of_neg (by decide), List.append_nil]
  have back : fieldText (name ++ 58 :: text) = text := by
    rw [fieldText, List.dropWhile_append_of_pos all, List.dropWhile_cons_of_neg (by decide)]
    rfl
  rw [front] at named
  exact ⟨name, plain, Option.some.inj named, by rw [back]⟩

/-- A line that names a field and has no other colon is filed under that field, and what is read is
the text behind the colon. -/
theorem IsField.reads {field : Field} {line : Bytes} (named : IsField field line)
    (plain : ∀ byte ∈ fieldText line, byte ≠ 58 ∧ byte ≠ 0) :
    filed line = some field ∧ field.value line = fieldText line := by
  obtain ⟨name, plainName, lowered, split⟩ := named.split
  have key := congrArg List.length field.key_lowered
  rw [← lowered] at key
  simp only [List.length_append, List.length_map, List.length_cons, List.length_nil] at key
  have free : ∀ byte ∈ name ++ 58 :: fieldText line, byte ≠ 0 := by
    rintro byte inside rfl
    rcases List.mem_append.mp inside with front | back
    · have zero : (0 : UInt8) ∈ field.name := by
        rw [← lowered]
        exact List.mem_map.mpr ⟨0, front, by decide⟩
      exact absurd zero (by cases field <;> decide)
    · cases back with
      | tail _ back => exact (plain 0 back).2 rfl
  have whole : cString line = line := by
    rw [split]
    apply List.takeWhile_eq_self_iff.mpr
    intro byte inside
    exact bne_iff_ne.mpr (free byte inside)
  constructor
  · rw [split, filed_eq plainName (fun inside => (plain 58 inside).1 rfl) free, lowered]
    cases field <;> decide
  · rw [Field.value, whole, key]
    conv_lhs => rw [split]
    rw [← List.drop_drop, List.drop_left]
    rfl

/-! ## Announced lengths -/

/-- Blanks and digits are neither colons nor zeros. -/
theorem plain_of_blank {byte : UInt8} (blank : isSpace byte = true ∨ isDigit byte = true) :
    byte ≠ 58 ∧ byte ≠ 0 := by
  constructor
  · rintro rfl
    exact absurd blank (by decide)
  · rintro rfl
    exact absurd blank (by decide)

section

variable {length : ℕ} {line : Bytes}

/-- A line that announces a length is filed as such. -/
theorem IsLengthField.reads (announces : IsLengthField length line) :
    filed line = some .contentLength ∧ Field.contentLength.value line = fieldText line := by
  obtain ⟨named, digits, -, all, -, front, back, blank, text⟩ := announces
  apply named.reads
  intro byte inside
  rw [text, List.mem_append, List.mem_append] at inside
  apply plain_of_blank
  rcases inside with (before | digit) | behind
  · exact Or.inl (blank byte (List.mem_append_left _ before))
  · exact Or.inr (all byte digit)
  · exact Or.inl (blank byte (List.mem_append_right _ behind))

/-- The number that is read from it is the length, cut to an `int`. -/
theorem IsLengthField.atoi_value (announces : IsLengthField length line) (fits : length < 2 ^ 63) :
    atoi (Field.contentLength.value line) = (length : ℤ).bmod (2 ^ 32) := by
  rw [announces.reads.2]
  obtain ⟨-, digits, some_, all, rfl, front, back, blank, text⟩ := announces
  have stop : ∀ byte ∈ back.head?, isDigit byte = false := by
    intro byte first
    have space := blank byte (List.mem_append_right _ (List.mem_of_mem_head? first))
    by_contra digit
    simp only [isSpace, isDigit, Bool.or_eq_true, beq_iff_eq, Bool.and_eq_true, decide_eq_true_eq,
      Bool.not_eq_false] at space digit
    omega
  have skipped : (front ++ digits ++ back).dropWhile isSpace =
      (digits ++ back).dropWhile isSpace := by
    rw [List.append_assoc, List.dropWhile_append_of_pos fun byte inside =>
      blank byte (List.mem_append_left _ inside)]
  rw [text, atoi, strtol, skipped, signedValue_digits some_ all stop]
  congr 1
  omega

end

/-- The usual spelling announces its length. -/
theorem IsLengthLine.isLengthField {length : ℕ} {line : Bytes}
    (announces : IsLengthLine length line) : IsLengthField length line := by
  obtain ⟨ending, ends, rfl⟩ := announces
  have name : bytes "Content-Length: " = bytes "Content-Length" ++ [58, 32] := by decide
  have all : (bytes "Content-Length").all (· != 58) = true := by decide
  have shape : bytes "Content-Length: " ++ decimal length ++ ending =
      bytes "Content-Length" ++ 58 :: ([32] ++ decimal length ++ ending) := by
    rw [name]
    simp only [List.append_assoc, List.cons_append, List.nil_append]
  have front : (bytes "Content-Length" ++ 58 :: ([32] ++ decimal length ++ ending)).takeWhile
      (· != 58) = bytes "Content-Length" := by
    rw [List.takeWhile_append_of_pos (List.all_eq_true.mp all),
      List.takeWhile_cons_of_neg (by decide), List.append_nil]
  have back : fieldText (bytes "Content-Length" ++ 58 :: ([32] ++ decimal length ++ ending)) =
      [32] ++ decimal length ++ ending := by
    rw [fieldText, List.dropWhile_append_of_pos (List.all_eq_true.mp all),
      List.dropWhile_cons_of_neg (by decide)]
    rfl
  have blank : ([32] ++ ending).all isSpace = true := by
    rcases ends with rfl | rfl | rfl <;> decide
  rw [shape]
  constructor
  · unfold IsField fieldName
    rw [if_pos (List.mem_append_right _ List.mem_cons_self), front]
    decide
  · refine ⟨decimal length, decimal_ne_nil length, fun _ => isDigit_decimal,
      digitsValue_decimal length, [32], ending, List.all_eq_true.mp blank, back⟩

/-- A length below 2^63 is read as it is exactly when it is an `int`. -/
theorem toNat_bmod_iff {length : ℕ} (fits : length < 2 ^ 63) :
    (UInt64.ofInt ((length : ℤ).bmod (2 ^ 32))).toNat = length ↔ length < 2 ^ 31 := by
  have low := Int.le_bmod (x := length) (m := 2 ^ 32) (by decide)
  have high := Int.bmod_lt (x := length) (m := 2 ^ 32) (by decide)
  rw [UInt64.ofInt, UInt64.toNat_ofNat']
  constructor
  · intro same
    omega
  · intro below
    rw [Int.bmod_eq_of_le (by omega) (by omega)]
    omega

/-- Behind a line that announces a length that length is answered exactly when it is an `int`. -/
theorem IsLengthLine.bodySize_iff {length : ℕ} {line : Bytes} (announces : IsLengthLine length line)
    (fits : length < 2 ^ 63) (h : HttpHeader) :
    (h.appendLine line).getBodySize.toNat = length ↔ length < 2 ^ 31 := by
  unfold HttpHeader.getBodySize
  rw [HttpHeader.appendLine_eq]
  change (if _ then _ else _ : UInt64).toNat = _ ↔ _
  rw [if_pos announces.isLengthField.reads.1, announces.isLengthField.atoi_value fits,
    toNat_bmod_iff fits]

/-! ## Sequences of lines -/

/-- Lines are appended in their order. -/
theorem HttpHeader.appendLines_append (h : HttpHeader) (lines later : List Bytes) :
    h.appendLines (lines ++ later) = (h.appendLines lines).appendLines later :=
  List.foldl_append

/-- A last line is appended behind the others. -/
theorem HttpHeader.appendLines_concat (h : HttpHeader) (lines : List Bytes) (line : Bytes) :
    h.appendLines (lines ++ [line]) = (h.appendLines lines).appendLine line :=
  h.appendLines_append lines [line]

/-- Appended lines are classified by field name exactly when each of them is filed under the field
it names, or sets nothing, and no announced length below 2^63 exceeds an `int`. -/
theorem followsNames_iff (h : HttpHeader) (lines : List Bytes) :
    FollowsNames h lines ↔ ∀ before line after, lines = before ++ line :: after →
      Careful (h.appendLines before) line := by
  constructor
  · intro follows before line after split
    constructor
    · exact changesByName_iff.mp (follows.changes before line after split)
    · intro length announces fits
      have answered := follows.length before line [] after length split announces fits
        fun later inside => absurd inside List.not_mem_nil
      rw [HttpHeader.appendLines_append] at answered
      exact (announces.bodySize_iff fits _).mp answered
  · intro careful
    constructor
    · intro before line after split
      exact changesByName_iff.mpr (careful before line after split).filed_
    · intro before line after rest length split announces fits others
      -- no line behind the announcement changes the length
      induction after using List.reverseRecOn generalizing rest with
      | nil =>
        have int := (careful before line rest split).fits length announces fits
        rw [HttpHeader.appendLines_append]
        exact (announces.bodySize_iff fits _).mpr int
      | append_singleton later last ih =>
        have split' : lines = before ++ line :: (later ++ last :: rest) := by
          rw [split, List.append_assoc]
          rfl
        have front : lines = (before ++ line :: later) ++ last :: rest := by
          rw [split', List.append_assoc]
          rfl
        have answered := ih (last :: rest) split' fun l inside =>
          others l (List.mem_append_left _ inside)
        have changes := changesByName_iff.mpr (careful _ last rest front).filed_
        have other := others last (List.mem_append_right _ List.mem_cons_self)
        have same : HttpHeader.bodySize _ = _ := not_not.mp (mt (changes .contentLength) other)
        have whole : before ++ line :: (later ++ [last]) = (before ++ line :: later) ++ [last] := by
          rw [List.append_assoc]
          rfl
        rw [whole, HttpHeader.appendLines_concat]
        exact (congrArg UInt64.toNat same).trans answered

/-- A line that only mentions `Connection:` in its name closes the connection, and a length of
2^31 is answered as a huge one. -/
theorem not_followsNames_mention :
    ¬ FollowsNames HttpHeader.new [bytes "Proxy-Connection: close\r\n"] ∧
      ¬ FollowsNames HttpHeader.new [bytes "Content-Length: 2147483648\r\n"] := by
  constructor
  · intro follows
    have changes := follows.changes [] (bytes "Proxy-Connection: close\r\n") [] rfl
    have changed : ¬ Field.connection.Same (HttpHeader.new.appendLines [])
        ((HttpHeader.new.appendLines []).appendLine (bytes "Proxy-Connection: close\r\n")) :=
      show ¬ (HttpHeader.persistent _ = HttpHeader.persistent _) by decide
    exact absurd (changes .connection changed) (by decide)
  · intro follows
    have announces : IsLengthLine 2147483648 (bytes "Content-Length: 2147483648\r\n") :=
      ⟨bytes "\r\n", Or.inl rfl, by decide⟩
    have answered := follows.length [] (bytes "Content-Length: 2147483648\r\n") [] [] 2147483648 rfl
      announces (by decide) fun later inside => absurd inside List.not_mem_nil
    have int := (announces.bodySize_iff (by decide) _).mp answered
    exact absurd int (by decide)

end TinyTools.Proxy
