import TinyTools.Proxy.FieldNames

/-!
# Directives of several lines

Each line with a known directive overwrites what earlier ones said about caching, so the last one
decides, whether it forbids or permits.
-/

namespace TinyTools.Proxy

open TinyTools.Lib

/-- What a line says about caching, if it is filed as a line that says something. -/
def cacheOrder (line : Bytes) : Option Bool :=
  if filed line = some .cacheControl then cacheValue (Field.cacheControl.value line) else none

/-- A `Cache-Control` line contains a restriction. -/
def Restricts (line : Bytes) : Prop :=
  IsField .cacheControl line ∧ (hasCase (bytes "no-cache") line = true ∨
    hasCase (bytes "no-store") line = true ∨ hasCase (bytes "private") line = true)

instance (line : Bytes) : Decidable (Restricts line) := inferInstanceAs (Decidable (_ ∧ _))

/-- A header with a restriction is uncacheable at its end, and no response under it is kept. -/
def StaysUncacheable (lines : List Bytes) : Prop :=
  (∃ line ∈ lines, Restricts line) →
    (HttpHeader.new.appendLines lines).isCachable = false ∧
      ∀ codeNum body, keep (HttpHeader.new.appendLines lines) codeNum body = none

/-- The last line that says something about caching decides. -/
theorem HttpHeader.cacheable_appendLines (h : HttpHeader) (lines : List Bytes) :
    (h.appendLines lines).cacheable =
      ((lines.filterMap cacheOrder).getLast?).getD h.cacheable := by
  induction lines using List.reverseRecOn with
  | nil => rfl
  | append_singleton lines line ih =>
    have last : ((h.appendLines lines).appendLine line).cacheable =
        (cacheOrder line).getD (h.appendLines lines).cacheable := by
      rw [appendLine_eq]
      unfold cacheOrder
      split_ifs <;> rfl
    rw [appendLines_concat, last, ih, List.filterMap_append]
    cases order : cacheOrder line with
    | none =>
      have nothing : [line].filterMap cacheOrder = [] := by
        rw [List.filterMap_cons_none order, List.filterMap_nil]
      rw [nothing, List.append_nil]
      rfl
    | some value =>
      have one : [line].filterMap cacheOrder = [value] := by
        rw [List.filterMap_cons_some order, List.filterMap_nil]
      rw [one, List.getLast?_concat]
      rfl

/-- A header with a restriction stays uncacheable exactly when the last line that is taken for a
`Cache-Control` line with a known directive is a restriction. -/
theorem staysUncacheable_iff (lines : List Bytes) :
    StaysUncacheable lines ↔ ((∃ line ∈ lines, Restricts line) →
      (lines.filterMap cacheOrder).getLast? = some false) := by
  have decides := HttpHeader.new.cacheable_appendLines lines
  have begins : HttpHeader.new.cacheable = true := rfl
  rw [begins] at decides
  apply imp_congr_right
  intro restricted
  constructor
  · intro stays
    have uncacheable : (HttpHeader.new.appendLines lines).cacheable = false := stays.1
    rw [decides] at uncacheable
    cases last : (lines.filterMap cacheOrder).getLast? with
    | none =>
      rw [last] at uncacheable
      cases uncacheable
    | some value =>
      rw [last] at uncacheable
      exact congrArg some uncacheable
  · intro last
    rw [last] at decides
    have uncacheable : (HttpHeader.new.appendLines lines).isCachable = false := decides
    refine ⟨uncacheable, fun codeNum body => if_neg ?_⟩
    rw [uncacheable]
    exact fun kept => Bool.false_ne_true kept.1

/-- A line that permits caching undoes a restriction. -/
theorem not_staysUncacheable_public :
    ¬ StaysUncacheable [bytes "Cache-Control: private\r\n", bytes "Cache-Control: public\r\n"] := by
  intro stays
  have uncacheable := (stays ⟨_, List.mem_cons_self, by decide⟩).1
  exact absurd uncacheable (by decide)

end TinyTools.Proxy
