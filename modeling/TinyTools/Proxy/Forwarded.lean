import TinyTools.Proxy.FieldNames

/-!
# The text of a header

A header keeps the lines it is sent on with, and leaves out those whose value it does not know. It
reaches the other side unchanged, up to lines that name `Connection`, exactly when no other line is
left out.
-/

namespace TinyTools.Proxy

open TinyTools.Lib

/-- The lines that name another field than `Connection`. -/
def otherFields (lines : List Bytes) : List Bytes :=
  lines.filter fun line => ¬ IsField .connection line

/-- The text of the header is some of its lines in order, and all that do not name `Connection`. -/
def ForwardsUnchanged (lines : List Bytes) : Prop :=
  ∃ kept : List Bytes, kept.Sublist lines ∧ otherFields kept = otherFields lines ∧
    (HttpHeader.new.appendLines lines).getHeader = kept.flatten

/-- The text of the header is that of the lines kept. -/
theorem HttpHeader.header_appendLines (h : HttpHeader) (lines : List Bytes) :
    (h.appendLines lines).header = h.header ++ (lines.filter isKept).flatten := by
  induction lines using List.reverseRecOn with
  | nil => exact (List.append_nil h.header).symm
  | append_singleton lines line ih =>
    have last : ((h.appendLines lines).appendLine line).header =
        if isKept line then (h.appendLines lines).header ++ line
        else (h.appendLines lines).header := by
      rw [appendLine_eq]
    rw [appendLines_concat, last, ih, List.filter_append, List.flatten_append,
      ← List.append_assoc]
    cases kept : isKept line with
    | true =>
      have one : [line].filter isKept = [line] := by rw [List.filter_cons_of_pos kept]; rfl
      rw [one, List.flatten_singleton, if_pos rfl]
    | false =>
      have none_ : [line].filter isKept = [] := by
        rw [List.filter_cons_of_neg (by rw [kept]; exact Bool.false_ne_true)]
        rfl
      rw [none_, List.flatten_nil, List.append_nil, if_neg Bool.false_ne_true]

/-- The lines of a header are forwarded unchanged exactly when every line that does not name
`Connection` is kept: the value of a `Connection:` it mentions is known, and so is the directive of
a line that is taken for a `Cache-Control` line. -/
theorem forwardsUnchanged_iff {lines : List Bytes} (read : AreLines MAXLINE lines) :
    ForwardsUnchanged lines ↔ ∀ line ∈ lines, ¬ IsField .connection line → isKept line = true := by
  have text : (HttpHeader.new.appendLines lines).getHeader = (lines.filter isKept).flatten :=
    HttpHeader.new.header_appendLines lines
  have part : (lines.filter isKept).Sublist lines := List.filter_sublist
  constructor
  · rintro ⟨kept, sublist, others, forwarded⟩ line inside other
    -- a text is cut into one list of lines only, so the lines are the ones the class keeps
    have room : 2 ≤ MAXLINE := by decide
    have mine := (read.sublist part).splitLines_flatten room
    have theirs := (read.sublist sublist).splitLines_flatten room
    rw [← text, forwarded, theirs] at mine
    have among : line ∈ otherFields lines := List.mem_filter.mpr ⟨inside, decide_eq_true other⟩
    rw [← others, mine] at among
    have stays := (List.mem_filter.mp among).1
    exact (List.mem_filter.mp stays).2
  · intro all
    refine ⟨lines.filter isKept, part, ?_, text⟩
    unfold otherFields
    rw [List.filter_filter]
    apply List.filter_congr
    intro line inside
    cases other : decide ¬ IsField .connection line with
    | false => rw [Bool.false_and]
    | true => rw [Bool.true_and, all line inside (of_decide_eq_true other)]

/-- Two lines that are kept. -/
theorem forwardsUnchanged_iff_host :
    ForwardsUnchanged [bytes "Host: h\r\n", bytes "\r\n"] ↔
      ∀ line ∈ [bytes "Host: h\r\n", bytes "\r\n"],
        ¬ IsField .connection line → isKept line = true := by
  have room : 2 ≤ MAXLINE := by decide
  have cut :
      splitLines MAXLINE (bytes "Host: h\r\n\r\n") = [bytes "Host: h\r\n", bytes "\r\n"] := by
    decide
  have read := splitLines_areLines room (bytes "Host: h\r\n\r\n")
  rw [cut] at read
  exact forwardsUnchanged_iff read

/-- A directive that the class does not know is left out. -/
theorem not_forwardsUnchanged_maxAge :
    ¬ ForwardsUnchanged [bytes "Cache-Control: max-age=60\r\n"] := by
  rintro ⟨kept, sublist, others, forwarded⟩
  have text :
      (HttpHeader.new.appendLines [bytes "Cache-Control: max-age=60\r\n"]).getHeader = [] := by
    decide
  have among : bytes "Cache-Control: max-age=60\r\n" ∈ otherFields kept := by
    rw [others]
    decide
  have inside := (List.mem_filter.mp among).1
  rw [text] at forwarded
  have empty := List.flatten_eq_nil_iff.mp forwarded.symm _ inside
  exact absurd empty (by decide)

end TinyTools.Proxy
