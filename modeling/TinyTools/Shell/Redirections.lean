import TinyTools.Shell.Child

/-!
# Redirections

Both loops that take the redirections out of the words take every operator together with the word
behind it. The loop of `main` copies what is left in order; the loop of the child erases what it
takes, and starts again at the second word. What it has passed over it passes over again, but the
first word it does not look at any more: an operator that comes to stand there stays.
-/

namespace TinyTools.Shell

open TinyTools.Lib

/-- A word that is neither an operator nor stands between segments. -/
structure PlainWord where
  /-- The word. -/
  text : Word
  /-- It is no operator. -/
  notOperator : operator text = none
  /-- It does not stand between segments. -/
  notPipe : text ≠ pipeWord

/-- What the words without `|` are made of. -/
inductive Item
  /-- A word of the command. -/
  | word (word : PlainWord)
  /-- An operator, followed by the word for its file. -/
  | redirection (op : Operator) (file : Word) (notPipe : file ≠ pipeWord)

/-- The words that an item is made of. -/
def Item.words : Item → List Word
  | word kept => [kept.text]
  | redirection op file _ => [op.text, file]

/-- The word of the command that an item is. -/
def Item.plain : Item → Option Word
  | word kept => some kept.text
  | redirection _ _ _ => none

/-- The call of `redirect` that an item asks for. -/
def Item.call : Item → Option (ℕ × Word)
  | word _ => none
  | redirection op file _ => some (op.flag, file)

/-- The words of a list of items. -/
def itemWords (items : List Item) : List Word := items.flatMap Item.words

/-- The words of the command. -/
def plainWords (items : List Item) : List Word := items.filterMap Item.plain

/-- The calls of `redirect` that the items ask for, in order. -/
def calls (items : List Item) : List (ℕ × Word) := items.filterMap Item.call

/-- The calls of `redirect` that a process makes itself. -/
def Process.calls : Process → List (ℕ × Word)
  | redirect flag file next => (flag, file) :: next.calls
  | fork _ _ next => next.calls
  | returned _ next => next.calls
  | free _ next => next.calls
  | started _ | exit | fault => []

/-- The words that the loop of a process ends with. -/
def Process.left : Process → Option (List Word)
  | redirect _ _ next => next.left
  | fork _ _ next => next.left
  | returned _ next => next.left
  | free args _ => some (args.map Arg.text)
  | started _ | exit | fault => none

/-- Each redirection is applied once: in order, and what is left are the words of the command, which
are also the words in `newBuffer`. -/
structure AppliedOnce (items : List Item) (p : Process) : Prop where
  /-- The calls of `redirect` are those of the items. -/
  applied : p.calls = calls items
  /-- The loop ends with the words of the command. -/
  ends : p.left = some (plainWords items)
  /-- These are the words that `main` kept. -/
  kept : rebuilt (itemWords items) = (plainWords items).flatMap (· ++ [32])

/-- The first two items are redirections. -/
def BeginsTwice : List Item → Prop
  | .redirection _ _ _ :: .redirection _ _ _ :: _ => True
  | _ => False

/-! ## The words of a segment -/

/-- The words of one segment, with its number. -/
def tag (stage : ℕ) (words : List Word) : List Arg := words.map (Arg.mk stage)

/-- No words are numbered. -/
@[simp]
theorem tag_nil (stage : ℕ) : tag stage [] = [] := rfl

/-- One word more is numbered. -/
@[simp]
theorem tag_cons (stage : ℕ) (word : Word) (words : List Word) :
    tag stage (word :: words) = ⟨stage, word⟩ :: tag stage words := rfl

/-- As many words are numbered. -/
@[simp]
theorem tag_length (stage : ℕ) (words : List Word) : (tag stage words).length = words.length :=
  List.length_map _

/-- The numbered words are the words. -/
@[simp]
theorem tag_text (stage : ℕ) (words : List Word) : (tag stage words).map Arg.text = words := by
  unfold tag
  rw [List.map_map]
  exact List.map_id words

/-- Words without `|` are those of one segment. -/
theorem number_tag {stage : ℕ} {words : List Word} (noPipe : pipeWord ∉ words) :
    number stage words = tag stage words := by
  induction words with
  | nil => rfl
  | cons word words ih =>
    have other : word ≠ pipeWord := fun same => noPipe (same ▸ List.mem_cons_self)
    rw [number, if_neg other, ih fun inside => noPipe (.tail _ inside), tag_cons]

/-- The words of one item more. -/
@[simp]
theorem itemWords_cons (item : Item) (items : List Item) :
    itemWords (item :: items) = item.words ++ itemWords items := List.flatMap_cons

/-- The words of items hold no `|`. -/
theorem itemWords_noPipe (items : List Item) : pipeWord ∉ itemWords items := by
  intro inside
  obtain ⟨item, -, among⟩ := List.mem_flatMap.mp inside
  cases item with
  | word word =>
    have same : pipeWord = word.text := by simpa [Item.words] using among
    exact word.notPipe same.symm
  | redirection op file notPipe =>
    have same : pipeWord = op.text ∨ pipeWord = file := by simpa [Item.words] using among
    cases same with
    | inl op_ => cases op <;> exact absurd op_ (by decide)
    | inr file_ => exact notPipe file_.symm

/-- Every operator among some words has a word for its file behind it. -/
def Paired : List Word → Prop
  | [] => True
  | [word] => operator word = none
  | word :: file :: rest =>
    if (operator word).isSome then Paired rest else Paired (file :: rest)

/-- Such words, when there is no `|`, are those of items. -/
theorem exists_items {words : List Word} (noPipe : pipeWord ∉ words) (paired : Paired words) :
    ∃ items, itemWords items = words := by
  induction words using Paired.induct with
  | case1 => exact ⟨[], rfl⟩
  | case2 word =>
    have solid : word ≠ pipeWord := fun same => noPipe (same ▸ List.mem_cons_self)
    exact ⟨[.word ⟨word, paired, solid⟩], rfl⟩
  | case3 word file rest stands ih =>
    rw [Paired, if_pos stands] at paired
    obtain ⟨op, read⟩ := Option.isSome_iff_exists.mp stands
    have notPipe : file ≠ pipeWord := fun same =>
      noPipe (same ▸ List.mem_cons_of_mem _ List.mem_cons_self)
    obtain ⟨items, shape⟩ := ih (fun inside => noPipe (.tail _ (.tail _ inside))) paired
    refine ⟨.redirection op file notPipe :: items, ?_⟩
    rw [itemWords_cons, shape, operator_eq_some read]
    rfl
  | case4 word file rest plain ih =>
    rw [Paired, if_neg plain] at paired
    have none_ : operator word = none := by simpa using plain
    have solid : word ≠ pipeWord := fun same => noPipe (same ▸ List.mem_cons_self)
    obtain ⟨items, shape⟩ := ih (fun inside => noPipe (.tail _ inside)) paired
    refine ⟨.word ⟨word, none_, solid⟩ :: items, ?_⟩
    rw [itemWords_cons, shape]
    rfl

/-- `main` keeps the words of the command. -/
theorem rebuilt_items (items : List Item) :
    rebuilt (itemWords items) = (plainWords items).flatMap (· ++ [32]) := by
  induction items with
  | nil => rfl
  | cons item items ih =>
    cases item with
    | word word =>
      change rebuilt (word.text :: itemWords items) =
        (word.text :: plainWords items).flatMap (· ++ [32])
      rw [rebuilt_plain word.notOperator, ih, List.flatMap_cons, List.append_assoc]
      rfl
    | redirection op file notPipe =>
      change rebuilt (op.text :: file :: itemWords items) = (plainWords items).flatMap (· ++ [32])
      rw [rebuilt_operator, ih]

/-! ## The loop of the child -/

/-- Some calls of `redirect`, and what follows them. -/
def redirecting (calls : List (ℕ × Word)) (next : Process) : Process :=
  calls.foldr (fun call next => .redirect call.1 call.2 next) next

/-- The calls come first. -/
@[simp]
theorem calls_redirecting (calls : List (ℕ × Word)) (next : Process) :
    (redirecting calls next).calls = calls ++ next.calls := by
  induction calls with
  | nil => rfl
  | cons call calls ih => exact congrArg (call :: ·) ih

/-- Redirections leave no words. -/
@[simp]
theorem left_redirecting (calls : List (ℕ × Word)) (next : Process) :
    (redirecting calls next).left = next.left := by
  induction calls with
  | nil => rfl
  | cons call calls ih => exact ih

/-- Behind a first word, the loop applies the redirections of the items in order and stands behind
the words of the command that are among them. -/
theorem scan_items (fails : Attempt → Bool) (cmd : Attempt) (stage : ℕ) (items : List Item)
    (head : Arg) (passed : List Arg)
    (plain : ∀ word ∈ passed, operator word.text = none ∧ word.text ≠ pipeWord)
    (behind : List Arg) :
    scan fails (head :: passed ++ (tag stage (itemWords items) ++ behind)) (passed.length + 1)
        cmd =
      redirecting (calls items)
        (scan fails (head :: passed ++ (tag stage (plainWords items) ++ behind))
          (passed.length + 1 + (plainWords items).length) cmd) := by
  induction items generalizing passed with
  | nil => rfl
  | cons item items ih =>
    cases item with
    | word word =>
      let arg : Arg := ⟨stage, word.text⟩
      have longer := ih (passed ++ [arg]) fun other inside => by
        cases List.mem_append.mp inside with
        | inl before => exact plain other before
        | inr last =>
          rw [List.mem_singleton.mp last]
          exact ⟨word.notOperator, word.notPipe⟩
      have over_ := scan_word fails (head :: passed) (tag stage (itemWords items) ++ behind) cmd
        arg word.notOperator word.notPipe
      have shape (words : List Word) : head :: (passed ++ [arg]) ++ (tag stage words ++ behind) =
          head :: passed ++ (tag stage (word.text :: words) ++ behind) := by simp [arg]
      rw [shape, shape, List.length_append, List.length_singleton] at longer
      change scan fails (head :: passed ++ (arg :: (tag stage (itemWords items) ++ behind)))
        (passed.length + 1) cmd = redirecting (calls items)
          (scan fails (head :: passed ++ (tag stage (word.text :: plainWords items) ++ behind))
            (passed.length + 1 + ((plainWords items).length + 1)) cmd)
      rw [← Nat.add_assoc, Nat.add_right_comm _ (plainWords items).length]
      exact over_.trans longer
    | redirection op file notPipe =>
      let tail := tag stage (itemWords items) ++ behind
      have erased := scan_operator fails (head :: passed) tail cmd stage op ⟨stage, file⟩
      have again := scan_words fails [head] tail cmd passed plain
      change scan fails (head :: passed ++ (⟨stage, op.text⟩ :: ⟨stage, file⟩ :: tail))
        (head :: passed).length cmd = .redirect op.flag file (redirecting (calls items) _)
      rw [erased]
      apply congrArg (Process.redirect op.flag file)
      rw [List.length_singleton, Nat.add_comm] at again
      exact again.trans (ih passed plain)

/-- A first word that is passed over stays: it is the first that the loop leaves. -/
theorem scan_head (fails : Attempt → Bool) (args : List Arg) (j : ℕ) (cmd : Attempt) (head : Arg)
    (first : args.head? = some head) (noPipe : ∀ arg ∈ args, arg.text ≠ pipeWord) (passed : 0 < j)
    {left : List Word} (ends : (scan fails args j cmd).left = some left) :
    left.head? = some head.text := by
  fun_induction scan fails args j cmd with
  | case1 args j cmd inside op stands behind ih =>
    apply ih
    · rw [List.head?_append, List.head?_take, if_neg passed.ne', first]
      rfl
    · exact forall_erased noPipe j
    · exact Nat.one_pos
    · exact ends
  | case2 => cases ends
  | case3 args j cmd inside none_ pipe => exact absurd pipe (noPipe _ (List.getElem_mem inside))
  | case4 args j cmd inside none_ plain ih => exact ih first noPipe (Nat.succ_pos j) ends
  | case5 args j =>
    rw [← Option.some.inj ends, List.head?_map, first]
    rfl

/-! ## Applying each redirection once -/

variable (fails : Attempt → Bool) (argv : List Word)

/-- The child scans the words of items as those of one segment. -/
theorem child_items (items : List Item) :
    child fails (itemWords items) argv = scan fails (tag 0 (itemWords items)) 0 (.line argv) := by
  unfold child
  rw [number_tag (itemWords_noPipe items)]

/-- From the second word on, the redirections behind a first word of the command are applied. -/
theorem scan_command (cmd : Attempt) (stage : ℕ) (kept : PlainWord) (items : List Item) :
    scan fails (tag stage (itemWords (.word kept :: items))) 1 cmd =
      redirecting (calls items)
        (.free (tag stage (plainWords (.word kept :: items))) (execvp fails cmd .exit)) := by
  have ran := scan_items fails cmd stage items ⟨stage, kept.text⟩ []
    (fun _ inside => absurd inside List.not_mem_nil) []
  have ended := scan_end fails cmd (tag stage (plainWords (.word kept :: items)))
    (show _ ≤ 1 + (plainWords items).length by
      change (⟨stage, kept.text⟩ :: tag stage (plainWords items)).length ≤ _
      rw [List.length_cons, tag_length, Nat.add_comm])
  rw [List.append_nil, List.append_nil, List.length_nil, Nat.zero_add] at ran
  rw [← ended]
  exact ran

/-- Unless the first two items are redirections, each is applied once. -/
theorem appliedOnce {items : List Item} (good : ¬ BeginsTwice items) :
    AppliedOnce items (child fails (itemWords items) argv) := by
  have ran : child fails (itemWords items) argv =
      redirecting (calls items)
        (.free (tag 0 (plainWords items)) (execvp fails (.line argv) .exit)) := by
    rw [child_items]
    cases items with
    | nil => exact scan_end fails _ _ le_rfl
    | cons item items =>
      cases item with
      | word kept =>
        have first := scan_word fails [] (tag 0 (itemWords items)) (.line argv)
          ⟨0, kept.text⟩ kept.notOperator kept.notPipe
        exact first.trans (scan_command fails _ 0 kept items)
      | redirection op file notPipe =>
        have first := scan_operator fails [] (tag 0 (itemWords items)) (.line argv) 0 op ⟨0, file⟩
        refine first.trans (congrArg (Process.redirect op.flag file) ?_)
        cases items with
        | nil => exact scan_end fails _ _ (Nat.zero_le 1)
        | cons item items =>
          cases item with
          | word kept => exact scan_command fails _ 0 kept items
          | redirection => exact absurd trivial good
  rw [ran]
  constructor
  · rw [calls_redirecting]
    unfold execvp
    split_ifs <;> exact List.append_nil _
  · rw [left_redirecting]
    exact congrArg some (tag_text 0 _)
  · exact rebuilt_items items

/-- Of two redirections at the front the second stays. -/
theorem BeginsTwice.not_appliedOnce {items : List Item} (twice : BeginsTwice items) :
    ¬ AppliedOnce items (child fails (itemWords items) argv) := by
  intro applied
  match items, twice with
  | .redirection op file notPipe :: .redirection op' file' notPipe' :: items, _ =>
    let rest := .redirection op' file' notPipe' :: items
    have first := scan_operator fails [] (tag 0 (itemWords rest)) (.line argv) 0 op
      ⟨0, file⟩
    have scanned := (child_items fails argv (.redirection op file notPipe :: rest)).trans first
    have ends := (congrArg Process.left scanned).symm.trans applied.ends
    have stays := scan_head fails _ 1 _ ⟨0, op'.text⟩ rfl (fun arg among same => by
      obtain ⟨word, inside, rfl⟩ := List.mem_map.mp among
      exact itemWords_noPipe rest (same ▸ inside)) Nat.one_pos ends
    obtain ⟨item, -, plain⟩ := List.mem_filterMap.mp (List.mem_of_head? stays)
    cases item with
    | word kept =>
      have operator_ := kept.notOperator
      rw [show kept.text = op'.text from Option.some.inj plain, operator_text] at operator_
      cases operator_
    | redirection => cases plain

/-- Each redirection is applied once, and what is left is what `main` kept, exactly when the words
do not begin with two redirections. -/
theorem appliedOnce_iff (items : List Item) :
    AppliedOnce items (child fails (itemWords items) argv) ↔ ¬ BeginsTwice items :=
  ⟨fun applied twice => twice.not_appliedOnce fails argv applied, appliedOnce fails argv⟩

/-- The words `< a > b cat`. -/
def twiceRedirected : List Item :=
  [.redirection .input (bytes "a") (by decide), .redirection .output (bytes "b") (by decide),
    .word ⟨bytes "cat", by decide, by decide⟩]

/-- The second of two redirections at the front is not applied. -/
theorem not_appliedOnce_twice : ¬ AppliedOnce twiceRedirected
    (child (fun _ => false) (itemWords twiceRedirected) [bytes "cat"]) := by
  have twice : BeginsTwice twiceRedirected := trivial
  exact twice.not_appliedOnce _ _

end TinyTools.Shell
