import TinyTools.Lib.Words
import TinyTools.Proxy.Filing

/-!
# What earlier lines leave behind

A line is copied into `url` or `resp` without its final zero, over whatever was there. The words of
the line are found in the line alone only if the last of them that counts ends within it.
-/

namespace TinyTools.Proxy

open TinyTools.Lib

/-! ## What is read of a line -/

/-- The parts of a request line, over what the array and the memory behind it held. -/
def requestAddress (url line : Bytes) : Option Address := parseAddress (overlay url (cString line))

/-- The status code of a status line; without one the assertion fails. -/
def responseCode (resp line : Bytes) : Option ℤ := do
  let first ← strtokAt (bytes " ") (overlay resp (cString line)) 0
  let second ← strtokAt (bytes " ") first.memory first.next
  return atoi (cString (second.memory.drop second.start))

/-- The line is read back from the buffer. -/
theorem LineRead.cString_store {line : LineRead} (some_ : ¬ line.numBytes ≤ 0)
    (short : line.bytes.length < MAXLINE) (buf : Bytes) :
    cString ((line.store buf).set (MAXLINE - 1) 0) = cString line.bytes := by
  unfold store overlay
  rw [whole some_, if_neg Bool.false_ne_true, List.append_assoc,
    List.set_append_right _ _ (by omega : line.bytes.length ≤ MAXLINE - 1)]
  cases MAXLINE - 1 - line.bytes.length with
  | zero => exact cString_line line.bytes _
  | succ n => exact cString_line line.bytes _

/-- A line that is read leaves room for its zero. -/
theorem CommClient.readlinex_short {c : CommClient} (some_ : ¬ (c.readlinex MAXLINE).numBytes ≤ 0) :
    (c.readlinex MAXLINE).bytes.length < MAXLINE := by
  have lines := splitLines_areLines (by decide : 2 ≤ MAXLINE) c.unread
  rw [readlinex_first some_] at lines
  have short := lines.short _ List.mem_cons_self
  have some_ : 0 < MAXLINE := by decide
  omega

/-- A session takes the parts of a request from its line and what `url` held. -/
theorem readRequest_address {s : Session} (some_ : ¬ (s.client.readlinex MAXLINE).numBytes ≤ 0) :
    match requestAddress s.url (s.client.readlinex MAXLINE).bytes with
    | none => ∃ s', readRequest s = .closed s'
    | some address => if address.command = bytes "CONNECT" then ∃ s', readRequest s = .closed s'
      else ∃ s' header, readRequest s = .request s' address header := by
  have text := LineRead.cString_store some_ (CommClient.readlinex_short some_) s.buf
  unfold readRequest requestAddress
  dsimp only
  rw [if_neg some_, text]
  cases parseAddress (overlay s.url (cString (s.client.readlinex MAXLINE).bytes)) with
  | none => exact ⟨_, rfl⟩
  | some address =>
    dsimp only
    split
    · exact ⟨_, rfl⟩
    · exact ⟨_, _, rfl⟩

/-- A session takes the status code from the status line and what `resp` held, and is aborted
without one. -/
theorem readResponse_code {s : Session} (some_ : ¬ (s.server.readlinex MAXLINE).numBytes ≤ 0) :
    match responseCode s.resp (s.server.readlinex MAXLINE).bytes with
    | none => ∃ s', readResponse s = .error (s', .aborted)
    | some codeNum => (∃ s', readResponse s = .error (s', .closed)) ∨
      ∃ s' header, readResponse s = .ok (s', header, codeNum) := by
  have text := LineRead.cString_store some_ (CommClient.readlinex_short some_) s.buf
  unfold readResponse responseCode
  dsimp only
  rw [if_neg some_, text]
  cases strtokAt (bytes " ") (overlay s.resp (cString (s.server.readlinex MAXLINE).bytes)) 0 with
  | none => exact ⟨_, rfl⟩
  | some first =>
    simp only [Option.bind_eq_bind, Option.bind_some]
    cases strtokAt (bytes " ") first.memory first.next with
    | none => exact ⟨_, rfl⟩
    | some second =>
      dsimp only [Option.bind_some, Option.pure_def]
      split
      · exact Or.inl ⟨_, rfl⟩
      · exact Or.inr ⟨_, _, rfl⟩

/-! ## Two runs -/

/-- A request line is read the same over any contents of `url`, and rejected over all of them where
it has too few words. -/
structure RequestUnleaked (line : Bytes) : Prop where
  /-- The same parts are read. -/
  same : ∀ behind url url' : Bytes, url.length = MAXLINE → url'.length = MAXLINE →
    requestAddress (url ++ behind) line = requestAddress (url' ++ behind) line
  /-- Too few words are rejected. -/
  rejects : nthWord lineToken 2 (cString line) = none → ∀ behind url : Bytes,
    url.length = MAXLINE → requestAddress (url ++ behind) line = none

/-- A status line is read the same over any contents of `resp`, and trips the assertion over none of
them where it has too few words. -/
structure StatusUnleaked (line : Bytes) : Prop where
  /-- The same code is read. -/
  same : ∀ behind resp resp' : Bytes, resp.length = MAXLINE → resp'.length = MAXLINE →
    responseCode (resp ++ behind) line = responseCode (resp' ++ behind) line
  /-- The assertion holds. -/
  asserts : nthWord (bytes " ") 1 (cString line) = none → ∀ behind resp : Bytes,
    resp.length = MAXLINE → responseCode (resp ++ behind) line ≠ none

/-- The code of a status line is known from the line alone: a blank ends it within the line, or the
number in front of it ends within it, or has so many digits that one more is lost. -/
def CodeEnds (line : Bytes) : Prop := ∃ code, nthWord (bytes " ") 1 (cString line) = some code ∧
  (Delimited (bytes " ") 2 (cString line) ∨ NumberEnds code ∨ Saturated code)

/-- Over any contents the string is the line and some more. -/
theorem overlay_string (memory : Bytes) {text : Bytes} (free : ∀ byte ∈ text, byte ≠ 0) :
    ∃ more, (∀ byte ∈ more, byte ≠ 0) ∧ cString (overlay memory text) = text ++ more := by
  refine ⟨cString (memory.drop text.length), cString_free _, ?_⟩
  have all : ∀ byte ∈ text, (byte != 0) = true := by
    intro byte inside
    simpa using free byte inside
  rw [overlay, cString, cString, List.takeWhile_append_of_pos all]

/-- Whatever is added to the line stands behind it over some contents, and nothing does over zero
bytes. -/
theorem exists_leftover {text : Bytes} (free : ∀ byte ∈ text, byte ≠ 0)
    (short : text.length < MAXLINE) {more : Bytes} (free' : ∀ byte ∈ more, byte ≠ 0) :
    ∃ behind array array' : Bytes, array.length = MAXLINE ∧ array'.length = MAXLINE ∧
      cString (overlay (array ++ behind) text) = text ++ more ∧
        cString (overlay (array' ++ behind) text) = text := by
  let memory := text ++ more ++ List.replicate MAXLINE 0
  have long : MAXLINE ≤ memory.length := by
    simp only [memory, List.length_append, List.length_replicate]
    omega
  refine ⟨memory.drop MAXLINE, memory.take MAXLINE, List.replicate MAXLINE 0, ?_, ?_, ?_, ?_⟩
  · rw [List.length_take, Nat.min_eq_left long]
  · exact List.length_replicate
  · have zeros : List.replicate MAXLINE (0 : UInt8) = 0 :: List.replicate (MAXLINE - 1) 0 := by
      rw [← List.replicate_succ]
      rfl
    rw [List.take_append_drop, overlay]
    simp only [memory, List.append_assoc, List.drop_left, zeros]
    rw [← List.append_assoc]
    exact cString_terminated (fun byte inside =>
      (List.mem_append.mp inside).elim (free byte) (free' byte)) _
  · obtain ⟨size, split⟩ := Nat.exists_eq_add_of_lt short
    have zeros : (List.replicate MAXLINE (0 : UInt8)).drop text.length =
        0 :: List.replicate size 0 := by
      rw [List.drop_replicate, ← List.replicate_succ]
      congr 1
      omega
    rw [overlay, List.drop_append_of_le_length (by rw [List.length_replicate]; omega), zeros]
    exact cString_terminated free _

/-- Two runs agree over all contents exactly when what is added to the line does not matter. -/
theorem same_iff {β : Type} (read : Bytes → β) {text : Bytes} (free : ∀ byte ∈ text, byte ≠ 0)
    (short : text.length < MAXLINE) :
    (∀ behind array array' : Bytes, array.length = MAXLINE → array'.length = MAXLINE →
      read (cString (overlay (array ++ behind) text)) =
        read (cString (overlay (array' ++ behind) text))) ↔
      ∀ more, (∀ byte ∈ more, byte ≠ 0) → read (text ++ more) = read text := by
  constructor
  · intro same more free'
    obtain ⟨behind, array, array', size, size', added, kept⟩ := exists_leftover free short free'
    have both := same behind array array' size size'
    rwa [added, kept] at both
  · intro stays behind array array' _ _
    obtain ⟨more, free', added⟩ := overlay_string (array ++ behind) free
    obtain ⟨more', free'', added'⟩ := overlay_string (array' ++ behind) free
    rw [added, added', stays more free', stays more' free'']

/-- A property holds over all contents exactly when it holds whatever is added to the line. -/
theorem holds_iff {P : Bytes → Prop} {text : Bytes} (free : ∀ byte ∈ text, byte ≠ 0)
    (short : text.length < MAXLINE) :
    (∀ behind array : Bytes, array.length = MAXLINE →
      P (cString (overlay (array ++ behind) text))) ↔
      ∀ more, (∀ byte ∈ more, byte ≠ 0) → P (text ++ more) := by
  constructor
  · intro holds more free'
    obtain ⟨behind, array, -, size, -, added, -⟩ := exists_leftover free short free'
    have one := holds behind array size
    rwa [added] at one
  · intro stays behind array _
    obtain ⟨more, free', added⟩ := overlay_string (array ++ behind) free
    rw [added]
    exact stays more free'

/-- Two runs agree over all contents, and where there are too few words a property holds of both,
exactly when this is so whatever is added to the line. -/
theorem leftover_iff {β : Type} (read : Bytes → β) (few : Prop) (P : β → Prop) {text : Bytes}
    (free : ∀ byte ∈ text, byte ≠ 0) (short : text.length < MAXLINE) :
    ((∀ behind array array' : Bytes, array.length = MAXLINE → array'.length = MAXLINE →
        read (cString (overlay (array ++ behind) text)) =
          read (cString (overlay (array' ++ behind) text))) ∧
      (few → ∀ behind array : Bytes, array.length = MAXLINE →
        P (read (cString (overlay (array ++ behind) text))))) ↔
      (∀ more, (∀ byte ∈ more, byte ≠ 0) → read (text ++ more) = read text) ∧
        (few → ∀ more, (∀ byte ∈ more, byte ≠ 0) → P (read (text ++ more))) := by
  apply and_congr (same_iff read free short)
  apply imp_congr_right
  intro _
  exact @holds_iff (fun string => P (read string)) text free short

/-! ## Request lines -/

/-- The address that the three words of a text say. -/
def wordsAddress (text : Bytes) : Option Address := do
  let command ← nthWord lineToken 0 text
  let hpf ← nthWord lineToken 1 text
  let version ← nthWord lineToken 2 text
  return splitAddress command (skipScheme hpf) version

/-- `parseAddress` takes the first three words of the string. -/
theorem parseAddress_words (url : Bytes) : parseAddress url = wordsAddress (cString url) := by
  unfold parseAddress wordsAddress nthWord
  simp only [Function.iterate_succ_apply', Function.iterate_zero, id_eq, Option.bind_eq_bind,
    Option.pure_def]
  cases first : strtok lineToken (cString url) with
  | none => rfl
  | some first =>
    simp only [Option.map_some, Option.bind_some, strtok_rest first]
    cases second : strtok lineToken (behindWord lineToken (cString url)) with
    | none => rfl
    | some second =>
      simp only [Option.map_some, Option.bind_some, strtok_rest second]
      cases strtok lineToken (behindWord lineToken (behindWord lineToken (cString url))) with
      | none => rfl
      | some third => rfl

/-- The parts of a request line are read from the string over what `url` held. -/
theorem requestAddress_words (url line : Bytes) :
    requestAddress url line = wordsAddress (cString (overlay url (cString line))) :=
  parseAddress_words _

/-- The version is the third word. -/
theorem splitAddress_version (command hpf version : Bytes) :
    (splitAddress command hpf version).version = version := by
  unfold splitAddress
  split <;> rfl

/-- Three words make an address, whose version is the third. -/
theorem wordsAddress_some {text version : Bytes} (third : nthWord lineToken 2 text = some version) :
    ∃ command hpf,
      wordsAddress text = some (splitAddress command (skipScheme hpf) version) := by
  have found : (nthWord lineToken 2 text).isSome = true := Option.isSome_of_eq_some third
  obtain ⟨command, first⟩ := Option.isSome_iff_exists.mp
    (nthWord_isSome (by decide : 0 ≤ 2) found)
  obtain ⟨hpf, second⟩ := Option.isSome_iff_exists.mp (nthWord_isSome (by decide : 1 ≤ 2) found)
  refine ⟨command, hpf, ?_⟩
  unfold wordsAddress
  rw [first, second, third]
  rfl

/-- Fewer make none. -/
theorem wordsAddress_none {text : Bytes} (few : nthWord lineToken 2 text = none) :
    wordsAddress text = none := by
  unfold wordsAddress
  rw [few]
  cases nthWord lineToken 0 text with
  | none => rfl
  | some command =>
    cases nthWord lineToken 1 text with
    | none => rfl
    | some hpf => rfl

/-- A request line is read the same whatever is added to it exactly when its third word ends within
it. -/
theorem wordsAddress_stays_iff (text : Bytes) :
    ((∀ more, (∀ byte ∈ more, byte ≠ 0) → wordsAddress (text ++ more) = wordsAddress text) ∧
      (nthWord lineToken 2 text = none →
        ∀ more, (∀ byte ∈ more, byte ≠ 0) → wordsAddress (text ++ more) = none)) ↔
      Delimited lineToken 3 text := by
  constructor
  · rintro ⟨stays, rejects⟩
    intro ends
    cases third : nthWord lineToken 2 text with
    | none =>
      obtain ⟨more, only, found⟩ := exists_nthWord (by decide : lineToken.contains 120 = false)
        (by decide : lineToken.contains 32 = true) 2 text
      have free : ∀ byte ∈ more, byte ≠ 0 := by
        intro byte inside
        rcases only byte inside with rfl | rfl <;> decide
      have rejected := rejects third more free
      obtain ⟨version, third'⟩ := Option.isSome_iff_exists.mp found
      obtain ⟨command, hpf, accepted⟩ := wordsAddress_some third'
      rw [rejected] at accepted
      cases accepted
    | some version =>
      obtain ⟨command, hpf, read⟩ := wordsAddress_some third
      have grown : nthWord lineToken 2 (text ++ [120]) = some (version ++ [120]) :=
        nthWord_grows third (not_not.mpr ends) [120]
      obtain ⟨command', hpf', read'⟩ := wordsAddress_some grown
      have same := stays [120] (by simp)
      rw [read, read'] at same
      have versions := congrArg Address.version (Option.some.inj same)
      rw [splitAddress_version, splitAddress_version] at versions
      exact absurd (congrArg List.length versions) (by simp)
  · intro ends
    have stays (more : Bytes) : wordsAddress (text ++ more) = wordsAddress text := by
      obtain ⟨-, words⟩ := ends.append more
      unfold wordsAddress
      rw [words 0 (by decide), words 1 (by decide), words 2 (by decide)]
    refine ⟨fun more _ => stays more, fun few more _ => ?_⟩
    rw [stays more]
    exact wordsAddress_none few

/-! ## Status lines -/

/-- The code of a text is its second word. -/
def wordsCode (text : Bytes) : Option ℤ := (nthWord (bytes " ") 1 text).map atoi

/-- The status code is read from the second word of the string. -/
theorem responseCode_words (resp line : Bytes) :
    responseCode resp line = wordsCode (cString (overlay resp (cString line))) := by
  unfold responseCode wordsCode nthWord
  generalize overlay resp (cString line) = memory
  have first := @strtokAt_eq (bytes " ") memory 0
  rw [List.drop_zero] at first
  simp only [Function.iterate_succ_apply', Function.iterate_zero, id_eq, Option.bind_eq_bind,
    Option.pure_def]
  cases found : strtokAt (bytes " ") memory 0 with
  | none =>
    rw [found] at first
    have nothing : strtok (bytes " ") (behindWord (bytes " ") (cString memory)) = none := by
      cases later : strtok (bytes " ") (behindWord (bytes " ") (cString memory)) with
      | none => rfl
      | some word =>
        have some_ := strtok_behindWord (Option.isSome_of_eq_some later)
        rw [← first] at some_
        cases some_
    rw [nothing]
    rfl
  | some word =>
    rw [found] at first
    have second := @strtokAt_eq (bytes " ") word.memory word.next
    rw [strtok_rest first.symm] at second
    rw [← second, Option.bind_some]
    cases strtokAt (bytes " ") word.memory word.next with
    | none => rfl
    | some code => rfl

/-- A status line is read the same whatever is added to it, without tripping the assertion, exactly
when its code ends within it. -/
theorem wordsCode_stays_iff (text : Bytes) :
    ((∀ more, (∀ byte ∈ more, byte ≠ 0) → wordsCode (text ++ more) = wordsCode text) ∧
      (nthWord (bytes " ") 1 text = none →
        ∀ more, (∀ byte ∈ more, byte ≠ 0) → wordsCode (text ++ more) ≠ none)) ↔
      ∃ code, nthWord (bytes " ") 1 text = some code ∧
        (Delimited (bytes " ") 2 text ∨ NumberEnds code ∨ Saturated code) := by
  -- where no blank ends the code, it grows up to the first blank that is added
  have grown {code : Bytes} (second : nthWord (bytes " ") 1 text = some code)
      (open_ : ¬ Delimited (bytes " ") 2 text) (more : Bytes) :
      wordsCode (text ++ more) =
        some (atoi (code ++ more.takeWhile (!(bytes " ").contains ·))) :=
    congrArg (Option.map atoi) (nthWord_grows second open_ more)
  have digits (byte : UInt8) (digit : isDigit byte = true) :
      byte ≠ 0 ∧ (!(bytes " ").contains byte) = true := by
    constructor
    · rintro rfl
      exact absurd digit (by decide)
    · rw [Bool.not_eq_true', Bool.eq_false_iff]
      intro blank
      rw [List.contains_iff_mem] at blank
      rw [show byte = 32 from List.mem_singleton.mp blank] at digit
      exact absurd digit (by decide)
  constructor
  · rintro ⟨stays, asserts⟩
    cases second : nthWord (bytes " ") 1 text with
    | none =>
      have trips := asserts second [] (by simp)
      rw [List.append_nil, wordsCode, second] at trips
      exact absurd rfl trips
    | some code =>
      refine ⟨code, rfl, ?_⟩
      by_cases open_ : Delimited (bytes " ") 2 text
      · exact Or.inl open_
      · refine Or.inr ((atoi_append_iff digits code).mp fun more plain => ?_)
        have same := stays more fun byte inside => (plain byte inside).1
        rw [grown second open_, wordsCode, second,
          List.takeWhile_eq_self_iff.mpr fun byte inside => (plain byte inside).2] at same
        exact Option.some.inj same
  · rintro ⟨code, second, ends⟩
    have stays (more : Bytes) (free : ∀ byte ∈ more, byte ≠ 0) :
        wordsCode (text ++ more) = wordsCode text := by
      by_cases open_ : Delimited (bytes " ") 2 text
      · rw [wordsCode, wordsCode, (open_.append more).2 1 (by decide)]
      · have number := (atoi_append_iff digits code).mpr (ends.resolve_left open_)
          (more.takeWhile (!(bytes " ").contains ·)) fun byte inside =>
            ⟨free byte ((List.takeWhile_prefix _).subset inside),
              List.mem_takeWhile_imp (p := (!(bytes " ").contains ·)) inside⟩
        rw [grown second open_, number, wordsCode, second]
        rfl
    refine ⟨stays, fun few => ?_⟩
    rw [second] at few
    cases few

/-- A request line is read the same over any leftover exactly when its third word ends within it,
and a status line exactly when its code does. -/
theorem unleaked_iff {line : Bytes} (short : line.length ≤ MAXLINE - 1) :
    (RequestUnleaked line ↔ Delimited lineToken 3 (cString line)) ∧
      (StatusUnleaked line ↔ CodeEnds line) := by
  have free := cString_free line
  have shorter : (cString line).length < MAXLINE := by
    have front := (List.takeWhile_prefix (· != 0) (l := line)).length_le
    have some_ : 0 < MAXLINE := by decide
    unfold cString
    omega
  constructor
  · have string := leftover_iff wordsAddress (nthWord lineToken 2 (cString line) = none)
      (· = none) free shorter
    simp only [← requestAddress_words] at string
    rw [← wordsAddress_stays_iff, ← string]
    exact ⟨fun unleaked => ⟨unleaked.same, unleaked.rejects⟩, fun both => ⟨both.1, both.2⟩⟩
  · have string := leftover_iff wordsCode (nthWord (bytes " ") 1 (cString line) = none)
      (· ≠ none) free shorter
    simp only [← responseCode_words] at string
    rw [CodeEnds, ← wordsCode_stays_iff, ← string]
    exact ⟨fun unleaked => ⟨unleaked.same, unleaked.asserts⟩, fun both => ⟨both.1, both.2⟩⟩

/-- A request line with three words and a status line with a code are read the same over any
leftover. -/
theorem unleaked_iff_whole : RequestUnleaked (bytes "GET / HTTP/1.1\r\n") ∧
    StatusUnleaked (bytes "HTTP/1.1 200 OK\r\n") :=
  ⟨(unleaked_iff (by decide)).1.mpr (by decide +kernel),
    (unleaked_iff (by decide)).2.mpr ⟨bytes "200", by decide +kernel, Or.inl (by decide +kernel)⟩⟩

/-- A request line of two words is accepted over the leftover of a longer one, whose scheme becomes
the version, and a status line of one word trips the assertion over zero bytes. -/
theorem not_unleaked_short : ¬ RequestUnleaked (bytes "GET /x\r\n") ∧
    ¬ StatusUnleaked (bytes "HTTP/1.1\r\n") ∧
      (requestAddress (cutUrl (bytes "GET http://a/bcd HTTP/1.1\r\n" ++ [0]))
        (bytes "GET /x\r\n")).map Address.version = some (bytes "://a") := by
  refine ⟨?_, ?_, by decide +kernel⟩
  · intro unleaked
    have cut : cString (bytes "GET /x\r\n") = bytes "GET /x\r\n" := by decide +kernel
    have few : nthWord lineToken 2 (cString (bytes "GET /x\r\n")) = none := by decide +kernel
    have rejected := unleaked.rejects few
    simp only [requestAddress_words, cut] at rejected
    have alone := (holds_iff (P := fun string => wordsAddress string = none)
      (by decide +kernel) (by decide)).mp rejected (bytes "://a") (by decide +kernel)
    have accepted : (wordsAddress (bytes "GET /x\r\n" ++ bytes "://a")).map Address.version =
        some (bytes "://a") := by decide +kernel
    rw [alone] at accepted
    cases accepted
  · intro unleaked
    have cut : cString (bytes "HTTP/1.1\r\n") = bytes "HTTP/1.1\r\n" := by decide +kernel
    have few : nthWord (bytes " ") 1 (cString (bytes "HTTP/1.1\r\n")) = none := by
      decide +kernel
    have asserted := unleaked.asserts few
    simp only [responseCode_words, cut] at asserted
    have alone := (holds_iff (P := fun string => wordsCode string ≠ none)
      (by decide +kernel) (by decide)).mp asserted [] (by simp)
    exact alone (by decide +kernel)

end TinyTools.Proxy
