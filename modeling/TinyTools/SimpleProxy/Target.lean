import TinyTools.Lib.Words
import TinyTools.Proxy.Address
import TinyTools.SimpleProxy.Rio

/-!
# The target of a request line

The first line of a client is cut into words, and the address in the second one into host, port and
file. A word that is missing is a null pointer, and so is the port behind a colon that ends the
host; neither is looked at before it is passed on.
-/

namespace TinyTools.SimpleProxy

open TinyTools.Lib TinyTools.Proxy

/-- `strtok_r`: the token, none for the null pointer, and the text at which the save pointer is
left. -/
def strtokR (delimiters text : Bytes) : Option Bytes × Bytes :=
  match strtok delimiters text with
  | some (token, rest) => (some token, rest)
  | none => (none, [])

/-- `strcpy` into an array: a write past its end fails. -/
def strcpy (array text : Bytes) : Option Bytes :=
  if text.length < array.length then some (overwrite array (text ++ [0])) else none

/-- What `parseAddress` writes to its arguments. -/
structure Target where
  /-- The host. -/
  host : Bytes
  /-- The path on the host; none for the null pointer. -/
  file : Option Bytes
  /-- The port. -/
  serverPort : ℤ
deriving DecidableEq

/-- The pointer moves past the scheme. -/
def skipHttp (url : Bytes) : Bytes :=
  if (strstr (bytes "http://") url).isSome then url.drop 7 else url

/-- `parseAddress`, with the array for the host; none where a null pointer is passed to a function
of the C library. -/
def parseAddress (url : Option Bytes) (host : Bytes) : Option Target := do
  let url ← url
  let url := skipHttp url
  let file := strchr 47 url
  let host ← strcpy host url
  let host := afterToken (bytes "/") host
  if (strchr 58 (cString host)).isNone then return ⟨cString host, file, 80⟩
  else
    let (_, saveptr) := strtokR (bytes ":") (cString host)
    let host := afterToken (bytes ":") host
    let port ← (strtokR (bytes "/") saveptr).1
    return ⟨cString host, file, atoi port⟩

/-- What becomes of a request line once the server is connected. -/
inductive Talk where
  /-- The first line is sent to the server. -/
  | get (host : Bytes) (serverPort : ℤ) (file : Bytes) (version : Option Bytes)
  /-- Bytes are passed on in both directions. -/
  | connect (host : Bytes) (serverPort : ℤ) (version : Option Bytes)
  /-- Nothing is sent. -/
  | rejected
deriving DecidableEq

/-- `webTalk` on a request line in its buffer. -/
def talk (buf1 host : Bytes) : Option Talk := do
  let (cmd, saveptr) := strtokR (bytes " ") (cString buf1)
  let (url, saveptr) := strtokR (bytes " ") saveptr
  let (version, _) := strtokR (bytes "\r\n") saveptr
  let target ← parseAddress url host
  let cmd ← cmd
  if cmd = bytes "GET" then
    return .get target.host target.serverPort (target.file.getD (bytes "/")) version
  else if cmd = bytes "CONNECT" then return .connect target.host target.serverPort version
  else return .rejected

/-- `webTalk` up to what becomes of the first line. -/
def webTalk (client : Rio) (buf1 host : Bytes) : Option Talk := do
  let (buf1, _, _) ← client.readlineb buf1 MAXLINE
  talk buf1 host

/-- The first line of a client is rejected, or a target is obtained from it, whatever the arrays
held. -/
def Handled (client : Rio) : Prop :=
  ∀ buf1 host : Bytes, buf1.length = MAXLINE → host.length = MAXLINE →
    (webTalk client buf1 host).isSome = true

/-- The host has a colon, and apart from colons in front none with anything behind it. -/
def Dangling (host : Bytes) : Prop :=
  58 ∈ host ∧ 58 ∉ (host.dropWhile (· == 58)).dropLast

instance (host : Bytes) : Decidable (Dangling host) :=
  inferInstanceAs (Decidable (_ ∧ _))

/-- A line has a second word, whose host does not end with its colon. -/
def HasTarget (line : Bytes) : Prop :=
  ∃ url, nthWord (bytes " ") 1 line = some url ∧ ¬ Dangling (hostText (skipHttp url))

/-! ## The words -/

/-- The token is the one of `strtok`. -/
theorem strtokR_token (delimiters text : Bytes) :
    (strtokR delimiters text).1 = (strtok delimiters text).map Prod.fst := by
  unfold strtokR
  cases strtok delimiters text <;> rfl

/-- A call behind the first word finds the second one. -/
theorem strtokR_second (delimiters text : Bytes) :
    (strtokR delimiters (strtokR delimiters text).2).1 = nthWord delimiters 1 text ∧
      ((nthWord delimiters 1 text).isSome = true → (strtokR delimiters text).1.isSome = true) := by
  have next : strtok delimiters (strtokR delimiters text).2 =
      strtok delimiters (behindWord delimiters text) := by
    unfold strtokR
    cases found : strtok delimiters text with
    | none =>
      cases behind : strtok delimiters (behindWord delimiters text) with
      | none => rfl
      | some second =>
        have some_ := strtok_behindWord (Option.isSome_of_eq_some behind)
        rw [found] at some_
        cases some_
    | some first => exact strtok_rest found
  constructor
  · rw [strtokR_token, next]
    rfl
  · intro second
    rw [strtokR_token, Option.isSome_map]
    unfold nthWord at second
    rw [Option.isSome_map] at second
    exact strtok_behindWord second

/-- A word is a part of the text. -/
theorem nthWord_sublist {delimiters text word : Bytes} {n : ℕ}
    (found : nthWord delimiters n text = some word) : word.Sublist text := by
  induction n generalizing text with
  | zero =>
    unfold nthWord at found
    rw [Function.iterate_zero, id_eq, Option.map_eq_some_iff] at found
    obtain ⟨⟨token, rest⟩, cut, same⟩ := found
    unfold strtok at cut
    split at cut
    · cases cut
    · have token_ := congrArg Prod.fst (Option.some.inj cut)
      rw [← same, ← token_]
      exact (List.takeWhile_sublist _).trans (List.dropWhile_sublist _)
  | succ n ih =>
    rw [nthWord_succ] at found
    exact (ih found).trans ((List.dropWhile_sublist _).trans (List.dropWhile_sublist _))

/-! ## The address -/

/-- A text that was copied is the string of its array. -/
theorem cString_strcpy {array text : Bytes} (free : ∀ byte ∈ text, byte ≠ 0)
    (room : text.length < array.length) :
    ∃ copied, strcpy array text = some copied ∧ cString copied = text :=
  ⟨overwrite array (text ++ [0]), if_pos room, cString_stored array free⟩

/-- A single delimiter. -/
theorem contains_single (delimiter byte : UInt8) :
    List.contains [delimiter] byte = (byte == delimiter) := Bool.or_false _

/-- The host is cut off at its slash. -/
theorem cutToken_slash (url : Bytes) : cutToken (bytes "/") url = hostText url := by
  have slash (byte : UInt8) : (bytes "/").contains byte = (byte == 47) := contains_single 47 byte
  unfold cutToken hostText
  simp only [slash]
  rfl

/-- A search finds nothing where the byte does not occur. -/
theorem strchr_isNone_iff (byte : UInt8) (text : Bytes) :
    (strchr byte text).isNone = true ↔ byte ∉ text := by
  have found : (strchr byte text).isNone = true ↔ text.dropWhile (· != byte) = [] := by
    unfold strchr
    split
    · exact iff_of_true rfl ‹_›
    · exact iff_of_false Bool.false_ne_true ‹_›
  rw [found, List.dropWhile_eq_nil_iff]
  constructor
  · intro others inside
    exact absurd (others byte inside) (by simp)
  · intro missing other inside
    exact bne_iff_ne.mpr (ne_of_mem_of_not_mem inside missing)

/-- Something is left behind a byte that is not the last one. -/
theorem tail_dropWhile_iff (byte : UInt8) (text : Bytes) :
    (text.dropWhile (· != byte)).tail ≠ [] ↔ byte ∈ text.dropLast := by
  induction text with
  | nil => exact iff_of_false (fun some_ => some_ rfl) List.not_mem_nil
  | cons first more ih =>
    cases more with
    | nil =>
      apply iff_of_false
      · rw [List.dropWhile_cons]
        split_ifs <;> exact fun some_ => some_ rfl
      · exact List.not_mem_nil
    | cons next more =>
      rw [List.dropLast_cons_cons, List.mem_cons, List.dropWhile_cons]
      by_cases same : byte = first
      · rw [same, if_neg (by simp)]
        exact iff_of_true (List.cons_ne_nil _ _) (Or.inl rfl)
      · rw [if_pos (bne_iff_ne.mpr (Ne.symm same)), ih, or_iff_right same]

/-- No slash stands behind the first colon of a host. -/
theorem hostText_plain (url : Bytes) :
    47 ∉ ((hostText url).dropWhile (· == 58)).dropWhile (· != 58) := by
  have plain : 47 ∉ (url.dropWhile (· == 47)).takeWhile (· != 47) := by
    intro inside
    exact absurd (List.mem_takeWhile_imp inside) (by decide)
  have slashes : ∀ byte ∈ url.takeWhile (· == 47), byte = 47 := by
    intro byte inside
    simpa using List.mem_takeWhile_imp inside
  unfold hostText
  generalize (url.dropWhile (· == 47)).takeWhile (· != 47) = name at plain ⊢
  cases lead : url.takeWhile (· == 47) with
  | nil =>
    intro inside
    have sublist := (List.dropWhile_sublist (· != 58)).trans
      (List.dropWhile_sublist (l := name) (· == 58))
    exact plain (sublist.subset inside)
  | cons slash others =>
    rw [lead] at slashes
    have other : ∀ byte ∈ slash :: others, (byte != 58) = true := by
      intro byte inside
      rw [slashes byte inside]
      rfl
    have kept : (slash :: others ++ name).dropWhile (· == 58) = slash :: others ++ name := by
      rw [slashes slash (.head _)]
      rfl
    rw [kept, List.dropWhile_append_of_pos other]
    exact fun inside => plain ((List.dropWhile_sublist _).subset inside)

/-- Behind the first token that a colon ends. -/
theorem strtokR_colon (text : Bytes) : (strtokR (bytes ":") text).2 =
    ((text.dropWhile (· == 58)).dropWhile (· != 58)).tail := by
  have colon (byte : UInt8) : (bytes ":").contains byte = (byte == 58) := contains_single 58 byte
  unfold strtokR strtok
  simp only [colon]
  cases text.dropWhile (· == 58) with
  | nil => rfl
  | cons first rest => rfl

/-- The part behind the first colon of a host is a port, where there is such a part. -/
theorem port_isSome_iff (url : Bytes) :
    (strtokR (bytes "/") (strtokR (bytes ":") (hostText url)).2).1.isSome = true ↔
      58 ∈ ((hostText url).dropWhile (· == 58)).dropLast := by
  have plain := hostText_plain url
  rw [strtokR_colon, ← tail_dropWhile_iff]
  generalize ((hostText url).dropWhile (· == 58)).dropWhile (· != 58) = behind at plain ⊢
  rw [strtokR_token, Option.isSome_map, strtok_isSome_iff]
  cases rest : behind.tail with
  | nil => exact Iff.rfl
  | cons byte more =>
    have other : byte ≠ 47 := by
      intro slash
      apply plain
      apply List.mem_of_mem_tail
      rw [rest, slash]
      exact .head _
    have stops : (bytes "/").contains byte = false := by
      rw [← beq_eq_false_iff_ne] at other
      rw [← other]
      exact contains_single 47 byte
    rw [List.dropWhile_cons, if_neg (by rw [stops]; exact Bool.false_ne_true)]

/-- A target is obtained from an address exactly when its host does not end with its colon. -/
theorem parseAddress_isSome_iff {url host : Bytes} (free : ∀ byte ∈ url, byte ≠ 0)
    (room : url.length < host.length) :
    (parseAddress (some url) host).isSome = true ↔ ¬ Dangling (hostText (skipHttp url)) := by
  have part : (skipHttp url).Sublist url := by
    unfold skipHttp
    split_ifs
    · exact List.drop_sublist 7 url
    · exact List.Sublist.refl url
  have partFree : ∀ byte ∈ skipHttp url, byte ≠ 0 := fun byte inside =>
    free byte (part.subset inside)
  have partRoom : (skipHttp url).length < host.length := part.length_le.trans_lt room
  obtain ⟨copied, copy, string⟩ := cString_strcpy partFree partRoom
  have cut : cString (afterToken (bytes "/") copied) = hostText (skipHttp url) := by
    rw [cString_afterToken, string, cutToken_slash]
  unfold parseAddress Dangling
  simp only [Option.bind_eq_bind, Option.bind_some, copy, cut]
  rw [not_and_not_right, ← port_isSome_iff]
  by_cases plain : 58 ∉ hostText (skipHttp url)
  · rw [if_pos ((strchr_isNone_iff 58 _).mpr plain)]
    exact iff_of_true rfl fun inside => absurd inside plain
  · rw [if_neg fun none => plain ((strchr_isNone_iff 58 _).mp none), Option.isSome_bind]
    rw [imp_iff_right (not_not.mp plain)]
    simp

/-- A first line is handled exactly when it has a second word, whose host does not end with its
colon. -/
theorem webTalk_isSome_iff (client : Rio) {buf1 host : Bytes} (size1 : buf1.length = MAXLINE)
    (size : host.length = MAXLINE) :
    (webTalk client buf1 host).isSome = true ↔
      HasTarget (cString (takeLine (MAXLINE - 1) client.unread)) := by
  obtain ⟨rest, read, -⟩ := client.readlineb_eq (by decide : 0 < MAXLINE) size1.ge
  have short := length_takeLine_le (MAXLINE - 1) client.unread
  generalize takeLine (MAXLINE - 1) client.unread = line at read short ⊢
  have string : cString (overwrite buf1 (line ++ [0])) = cString line :=
    cString_overwrite buf1 line
  have below : (cString line).length < host.length := by
    have part : (cString line).length ≤ line.length := (List.takeWhile_sublist _).length_le
    have positive : 0 < MAXLINE := by decide
    omega
  obtain ⟨second, first⟩ := strtokR_second (bytes " ") (cString line)
  unfold webTalk talk
  simp only [read, Option.bind_eq_bind, Option.bind_some, string, second]
  cases address : nthWord (bytes " ") 1 (cString line) with
  | none =>
    apply iff_of_false Bool.false_ne_true
    rintro ⟨url, found, -⟩
    rw [address] at found
    cases found
  | some url =>
    have part := nthWord_sublist address
    have target := parseAddress_isSome_iff
      (fun byte inside => cString_free line byte (part.subset inside))
      (part.length_le.trans_lt below)
    rw [address] at first
    obtain ⟨cmd, word⟩ := Option.isSome_iff_exists.mp (first rfl)
    have goesOn : HasTarget (cString line) ↔ ¬ Dangling (hostText (skipHttp url)) := by
      constructor
      · rintro ⟨other, found, fine⟩
        rw [address] at found
        rwa [Option.some.inj found]
      · exact fun fine => ⟨url, address, fine⟩
    rw [goesOn, ← target, word]
    cases parseAddress (some url) host with
    | none => exact Iff.rfl
    | some target =>
      apply iff_of_true _ rfl
      simp only [Option.bind_some]
      split_ifs <;> rfl

/-- The first line of a client is rejected, or a target is obtained from it, exactly when it has a
second word whose host does not end with its colon. -/
theorem handled_iff (client : Rio) :
    Handled client ↔ HasTarget (cString (takeLine (MAXLINE - 1) client.unread)) := by
  have zeros : (List.replicate MAXLINE (0 : UInt8)).length = MAXLINE := List.length_replicate
  constructor
  · intro handled
    exact (webTalk_isSome_iff client zeros zeros).mp (handled _ _ zeros zeros)
  · intro target buf1 host size1 size
    exact (webTalk_isSome_iff client size1 size).mpr target

/-- A client that sends nothing, and one whose host ends with its colon. -/
theorem not_handled_malformed :
    ¬ Handled ⟨[], [], Nat.zero_le _⟩ ∧
      ¬ Handled ⟨bytes "GET h: HTTP/1.0\r\n", [], by decide⟩ := by
  have zeros : (List.replicate MAXLINE (0 : UInt8)).length = MAXLINE := List.length_replicate
  constructor
  · intro handled
    have target := (webTalk_isSome_iff _ zeros zeros).mp (handled _ _ zeros zeros)
    obtain ⟨url, found, -⟩ := target
    cases found
  · intro handled
    have target := (webTalk_isSome_iff _ zeros zeros).mp (handled _ _ zeros zeros)
    obtain ⟨url, found, fine⟩ := target
    have line : cString (takeLine (MAXLINE - 1) (bytes "GET h: HTTP/1.0\r\n" ++ [])) =
        bytes "GET h: HTTP/1.0\r\n" := by decide +kernel
    have word : nthWord (bytes " ") 1 (bytes "GET h: HTTP/1.0\r\n") = some (bytes "h:") := by
      decide +kernel
    change nthWord _ 1 (cString (takeLine _ (_ ++ []))) = _ at found
    rw [line, word] at found
    rw [← Option.some.inj found] at fine
    exact fine (by decide +kernel)

end TinyTools.SimpleProxy
