import TinyTools.Proxy.Address

/-!
# Request lines read back

A request line is written from its parts, and `parseAddress` reads the parts back. The scheme is
searched for in the whole address, so a path that holds another one may be cut in its place.
-/

namespace TinyTools.Proxy

open TinyTools.Lib

/-- A text that the tokenizer of the request line leaves whole. -/
def IsUncut (text : Bytes) : Prop := ∀ byte ∈ text, byte ≠ 0 ∧ lineToken.contains byte = false

instance (text : Bytes) : Decidable (IsUncut text) := inferInstanceAs (Decidable (∀ _ ∈ _, _))

/-- The scheme in front of an address. -/
inductive Scheme where
  | absent
  | http
  | https

/-- The text of a scheme. -/
def Scheme.text : Scheme → Bytes
  | .absent => []
  | .http => bytes "http://"
  | .https => bytes "https://"

/-- The text of a port. -/
def portText : Option UInt16 → Bytes
  | none => []
  | some number => 58 :: decimal number.toNat

/-- The parts of a request line. -/
structure RequestLine where
  /-- The method. -/
  command : Bytes
  /-- The scheme. -/
  scheme : Scheme
  /-- The host. -/
  host : Bytes
  /-- The port, if it is written. -/
  port : Option UInt16
  /-- The path on the host. -/
  path : Bytes
  /-- The protocol version. -/
  version : Bytes
  /-- The method is a word. -/
  command_word : command ≠ [] ∧ IsUncut command
  /-- The host is a word. -/
  host_word : host ≠ [] ∧ IsUncut host
  /-- The host ends at neither a slash nor a colon. -/
  host_plain : 47 ∉ host ∧ 58 ∉ host
  /-- The port is not zero. -/
  port_some : ∀ number ∈ port, number ≠ 0
  /-- The path has no blanks. -/
  path_uncut : IsUncut path
  /-- The path is empty or starts with a slash. -/
  path_starts : ∀ byte ∈ path.head?, byte = 47
  /-- The version is a word. -/
  version_word : version ≠ [] ∧ IsUncut version

namespace RequestLine

variable (line : RequestLine)

/-- The host and the port. -/
def authority : Bytes := line.host ++ portText line.port

/-- The second word. -/
def target : Bytes := line.scheme.text ++ (line.authority ++ line.path)

/-- The line as it is sent. -/
def text : Bytes :=
  line.command ++ 32 :: (line.target ++ 32 :: (line.version ++ bytes "\r\n"))

/-- What the line says. -/
def address : Address where
  command := line.command
  host := line.host
  port := line.port.getD (if line.command = bytes "CONNECT" then 443 else 80)
  file := if line.path = [] then bytes "/" else line.path
  version := line.version

/-- The line is read back. -/
def ReadsBack : Prop := ∀ rest, parseAddress (line.text ++ 0 :: rest) = some line.address

/-- The search for a scheme finds the one in front, or none. -/
def SchemeFirst : Prop :=
  match line.scheme with
  | .absent => ¬ bytes "http://" <:+: line.path ∧ ¬ bytes "https://" <:+: line.path
  | .http => True
  | .https => ¬ bytes "http://" <:+: line.path

/-! ## The words of the line -/

/-- A port has no delimiters. -/
theorem portText_uncut (port : Option UInt16) : IsUncut (portText port) := by
  cases port with
  | none => exact fun byte inside => absurd inside List.not_mem_nil
  | some number =>
    intro byte inside
    cases List.mem_cons.mp inside with
    | inl colon =>
      rw [colon]
      decide
    | inr digit =>
      have code := isDigit_decimal digit
      simp only [isDigit, Bool.and_eq_true, decide_eq_true_eq] at code
      constructor
      · rintro rfl
        exact absurd code (by decide)
      · rw [Bool.eq_false_iff]
        intro delimiter
        rw [List.contains_iff_mem] at delimiter
        fin_cases delimiter <;> exact absurd code (by decide)

/-- The parts of an uncut text. -/
theorem isUncut_append {front back : Bytes} (left : IsUncut front) (right : IsUncut back) :
    IsUncut (front ++ back) := fun byte inside =>
  (List.mem_append.mp inside).elim (left byte) (right byte)

/-- The second word is one. -/
theorem target_uncut : IsUncut line.target := by
  have scheme : IsUncut line.scheme.text := by
    cases line.scheme <;> decide +kernel
  exact isUncut_append scheme
    (isUncut_append (isUncut_append line.host_word.2 (portText_uncut line.port)) line.path_uncut)

/-- The second word is not empty. -/
theorem target_ne_nil : line.target ≠ [] := by
  intro none
  have host := (List.append_eq_nil_iff.mp (List.append_eq_nil_iff.mp
    (List.append_eq_nil_iff.mp none).2).1).1
  exact line.host_word.1 host

/-- The three words reach the second part of `parseAddress`. -/
theorem parseAddress_text (rest : Bytes) : parseAddress (line.text ++ 0 :: rest) =
    some (splitAddress line.command (skipScheme line.target) line.version) := by
  have lineEnd : bytes "\r\n" = [13, 10] := rfl
  have free : ∀ byte ∈ line.text, byte ≠ 0 := by
    intro byte inside
    rw [text] at inside
    simp only [List.mem_append, List.mem_cons] at inside
    rcases inside with command | blank | target | blank | version | ending
    · exact (line.command_word.2 byte command).1
    · rw [blank]; decide
    · exact (line.target_uncut byte target).1
    · rw [blank]; decide
    · exact (line.version_word.2 byte version).1
    · rw [lineEnd] at ending
      rcases List.mem_pair.mp ending with rfl | rfl <;> decide
  have first := strtok_word line.command_word.1 (fun byte inside =>
    (line.command_word.2 byte inside).2) (by decide : lineToken.contains 32 = true)
    (line.target ++ 32 :: (line.version ++ bytes "\r\n"))
  have second := strtok_word line.target_ne_nil (fun byte inside =>
    (line.target_uncut byte inside).2) (by decide : lineToken.contains 32 = true)
    (line.version ++ [13, 10])
  have third := strtok_word line.version_word.1 (fun byte inside =>
    (line.version_word.2 byte inside).2) (by decide : lineToken.contains 13 = true) [10]
  rw [parseAddress, cString_terminated free, text, first, lineEnd]
  simp only [Option.bind_eq_bind, Option.bind_some, second, third]
  rfl

/-! ## The parts of the address -/

/-- A byte of the host or the port is not a slash. -/
theorem authority_plain : 47 ∉ line.authority := by
  intro inside
  cases List.mem_append.mp inside with
  | inl host => exact line.host_plain.1 host
  | inr port =>
    cases written : line.port with
    | none => exact absurd (written ▸ port) List.not_mem_nil
    | some number =>
      rw [written] at port
      exact absurd (isDigit_decimal ((List.mem_cons.mp port).resolve_left (by decide))) (by decide)

/-- The path starts with a slash, and is cut off there. -/
theorem cut_path {front : Bytes} (plain : 47 ∉ front) :
    (front ++ line.path).takeWhile (· != 47) = front ∧
      (front ++ line.path).dropWhile (· != 47) = line.path := by
  apply takeWhile_stop
  · intro byte inside
    simpa using ne_of_mem_of_not_mem inside plain
  · intro byte first
    rw [line.path_starts byte first]
    rfl

/-- The file of an address behind whose host the path stands. -/
theorem file_read {front : Bytes} (plain : 47 ∉ front) :
    (strchr 47 (front ++ line.path)).getD (bytes "/") = line.address.file := by
  rw [strchr, (line.cut_path plain).2]
  unfold address
  cases line.path with
  | nil => rfl
  | cons first rest => rw [if_neg (List.cons_ne_nil first rest)]; rfl

/-- The first token of an address that starts with no slash. -/
theorem hostText_read {front : Bytes} (some_ : front ≠ []) (plain : 47 ∉ front) :
    hostText (front ++ line.path) = front := by
  obtain ⟨first, others, rfl⟩ := List.exists_cons_of_ne_nil some_
  have notSlash : (first == 47) = false := by
    simpa using ne_of_mem_of_not_mem List.mem_cons_self plain
  rw [hostText, List.cons_append, List.takeWhile_cons, List.dropWhile_cons, notSlash,
    if_neg (by decide), if_neg (by decide), ← List.cons_append, (line.cut_path plain).1]
  rfl

/-- Behind the scheme, every part is read back. -/
theorem splitAddress_read :
    splitAddress line.command (line.authority ++ line.path) line.version = line.address := by
  have some_ : line.authority ≠ [] := fun none =>
    line.host_word.1 (List.append_eq_nil_iff.mp none).1
  have noColon : ∀ byte ∈ line.host, (byte != 58) = true := by
    intro byte inside
    simpa using ne_of_mem_of_not_mem inside line.host_plain.2
  rw [splitAddress, line.file_read line.authority_plain,
    line.hostText_read some_ line.authority_plain]
  unfold authority strchr
  rw [List.takeWhile_append_of_pos noColon, List.dropWhile_append_of_pos noColon]
  unfold address
  cases line.port with
  | none => simp only [portText, List.dropWhile_nil, Option.getD_none, List.append_nil]
  | some number =>
    have bound := number.toNat_lt
    have value : UInt16.ofInt (atoi (decimal number.toNat)) = number := by
      rw [atoi_decimal (by omega)]
      exact UInt16.toNat_inj.mp (by rw [UInt16.ofInt, UInt16.toNat_ofNat']; omega)
    have stop : (58 :: decimal number.toNat).dropWhile (· != 58) = 58 :: decimal number.toNat := rfl
    simp only [portText, stop, List.tail_cons, value, Option.getD_some]
    simp

/-! ## What the search for a scheme finds -/

/-- A byte of a port is the colon or a digit. -/
theorem portText_byte {port : Option UInt16} {byte : UInt8} (inside : byte ∈ portText port) :
    byte = 58 ∨ isDigit byte := by
  cases port with
  | none => exact absurd inside List.not_mem_nil
  | some number => exact (List.mem_cons.mp inside).imp_right isDigit_decimal

/-- What follows the host starts with the colon or the slash, but not with a colon and a slash. -/
theorem behind_host : (∀ byte ∈ (portText line.port ++ line.path).head?, byte = 58 ∨ byte = 47) ∧
    ∀ rest, portText line.port ++ line.path ≠ 58 :: 47 :: rest := by
  cases line.port with
  | none =>
    refine ⟨fun byte first => Or.inr (line.path_starts byte first), fun rest same => ?_⟩
    exact absurd (line.path_starts 58 (congrArg List.head? same)) (by decide)
  | some number =>
    refine ⟨fun byte first => Or.inl (Option.some.inj first).symm, fun rest same => ?_⟩
    have digits : decimal number.toNat ++ line.path = 47 :: rest := (List.cons.inj same).2
    obtain ⟨first, others, shape⟩ := List.exists_cons_of_ne_nil (decimal_ne_nil number.toNat)
    rw [shape] at digits
    have slash : first = 47 := (List.cons.inj digits).1
    have digit := isDigit_decimal (shape ▸ List.mem_cons_self : first ∈ decimal number.toNat)
    rw [slash] at digit
    exact absurd digit (by decide)

/-- The name of a scheme. -/
structure IsSchemeName (name : Bytes) : Prop where
  /-- There are letters. -/
  some_ : name ≠ []
  /-- There are neither colons nor slashes. -/
  plain : ∀ byte ∈ name, (byte != 58 && byte != 47) = true
  /-- There are no digits. -/
  letters : ∀ byte ∈ name, isDigit byte = false

/-- A scheme occurs behind the host and the port or not at all. -/
theorem infix_path {name : Bytes} (isName : IsSchemeName name)
    (inside : name ++ [58, 47, 47] <:+: line.authority ++ line.path) :
    name ++ [58, 47, 47] <:+: line.path := by
  obtain ⟨letter, letters, shape⟩ := List.exists_cons_of_ne_nil isName.some_
  have isLetter : letter ∈ name := shape ▸ List.mem_cons_self
  have hostPlain : ∀ byte ∈ line.host, (byte != 58 && byte != 47) = true := by
    intro byte member
    have noColon := ne_of_mem_of_not_mem member line.host_plain.2
    have noSlash := ne_of_mem_of_not_mem member line.host_plain.1
    simp [noColon, noSlash]
  obtain ⟨stops, apart⟩ := line.behind_host
  rw [authority, List.append_assoc] at inside
  -- an occurrence from within the host would end it with the name, at "://"
  have behindHost := infix_behind (fun piece ends some_ => by
    rintro ⟨rest, split⟩
    have pieceStop := takeWhile_stop (p := fun byte => byte != 58 && byte != 47)
      (fun byte member => hostPlain byte (ends.subset member))
      (fun byte first => by rcases stops byte first with rfl | rfl <;> rfl)
    have nameStop := @takeWhile_stop _ _ (58 :: 47 :: 47 :: rest) isName.plain
      (fun byte first => by obtain rfl := Option.some.inj first; rfl)
    have whole : name ++ 58 :: 47 :: 47 :: rest = piece ++ (portText line.port ++ line.path) := by
      rw [← split, List.append_assoc]
      rfl
    rw [← whole, nameStop.2] at pieceStop
    exact apart (47 :: rest) pieceStop.2.symm) inside
  refine infix_behind (fun piece ends some_ => ?_) behindHost
  rintro ⟨rest, split⟩
  obtain ⟨first, others, pieceShape⟩ := List.exists_cons_of_ne_nil some_
  rw [shape, pieceShape] at split
  have same : letter = first := (List.cons.inj split).1
  have member : first ∈ portText line.port := ends.subset (pieceShape ▸ List.mem_cons_self)
  cases portText_byte member with
  | inl colon =>
    have plain := isName.plain letter isLetter
    rw [same, colon] at plain
    exact absurd plain (by decide)
  | inr digit =>
    have letterByte := isName.letters letter isLetter
    rw [same, digit] at letterByte
    exact absurd letterByte (by decide)

/-- The two schemes have names. -/
theorem isSchemeName : IsSchemeName (bytes "http") ∧ IsSchemeName (bytes "https") :=
  ⟨⟨by decide +kernel, by decide +kernel, by decide +kernel⟩,
    ⟨by decide +kernel, by decide +kernel, by decide +kernel⟩⟩

/-- The longer scheme does not contain the shorter one. -/
theorem https_infix {rest : Bytes} (inside : bytes "http://" <:+: bytes "https://" ++ rest) :
    bytes "http://" <:+: rest := by
  have short : bytes "http://" = [104, 116, 116, 112, 58, 47, 47] := rfl
  have long : bytes "https://" = [104, 116, 116, 112, 115, 58, 47, 47] := rfl
  simpa [short, long, List.infix_cons_iff, List.cons_prefix_cons] using inside

/-- An address with a scheme in it loses seven bytes. -/
theorem skipScheme_http {hpf : Bytes} (found : bytes "http://" <:+: hpf) :
    skipScheme hpf = hpf.drop 7 := by
  rw [skipScheme, if_pos (strstr_isSome_iff.mpr found)]

/-- An address with the longer scheme alone loses eight bytes. -/
theorem skipScheme_https {hpf : Bytes} (http : ¬ bytes "http://" <:+: hpf)
    (found : bytes "https://" <:+: hpf) : skipScheme hpf = hpf.drop 8 := by
  rw [skipScheme, if_neg (mt strstr_isSome_iff.mp http), if_pos (strstr_isSome_iff.mpr found)]

/-- An address without a scheme is kept. -/
theorem skipScheme_absent {hpf : Bytes} (http : ¬ bytes "http://" <:+: hpf)
    (https : ¬ bytes "https://" <:+: hpf) : skipScheme hpf = hpf := by
  rw [skipScheme, if_neg (mt strstr_isSome_iff.mp http), if_neg (mt strstr_isSome_iff.mp https)]

/-- The scheme in front is the one that is skipped. -/
theorem SchemeFirst.skipScheme {line : RequestLine} (first : line.SchemeFirst) :
    skipScheme line.target = line.authority ++ line.path := by
  have http : ¬ bytes "http://" <:+: line.path →
      ¬ bytes "http://" <:+: line.authority ++ line.path := mt (line.infix_path isSchemeName.1)
  have https : ¬ bytes "https://" <:+: line.path →
      ¬ bytes "https://" <:+: line.authority ++ line.path := mt (line.infix_path isSchemeName.2)
  unfold SchemeFirst at first
  unfold target
  cases scheme : line.scheme with
  | absent =>
    rw [scheme] at first
    exact skipScheme_absent (http first.1) (https first.2)
  | http => exact skipScheme_http (List.infix_append [] _ _)
  | https =>
    rw [scheme] at first
    exact skipScheme_https (mt https_infix (http first)) (List.infix_append [] _ _)

/-! ## What is lost when the search finds another one -/

/-- The file of an address is no longer than the address. -/
theorem file_length (command hpf version : Bytes) :
    (splitAddress command hpf version).file.length ≤ max hpf.length 1 := by
  rw [splitAddress_file, strchr]
  have part := (List.dropWhile_suffix (· != 47) (l := hpf)).length_le
  split
  · exact le_max_right _ _
  · exact le_max_of_le_left part

/-- An address that loses seven bytes or more is not read back. -/
theorem cut_short {size : ℕ} (some_ : 7 ≤ size) (long : 1 < line.path.length) :
    splitAddress line.command ((line.authority ++ line.path).drop size) line.version ≠
      line.address := by
  intro same
  have host := congrArg Address.host same
  have file := congrArg Address.file same
  have pathSome : line.path ≠ [] := List.ne_nil_of_length_pos (by omega)
  rw [splitAddress_host] at host
  by_cases within : size ≤ line.authority.length
  · rw [List.drop_append_of_le_length within] at host
    by_cases left : line.authority.drop size = []
    · -- the address begins with the path, so the host would begin with a slash
      obtain ⟨first, rest, shape⟩ := List.exists_cons_of_ne_nil pathSome
      have slash : first = 47 := line.path_starts first (by rw [shape]; rfl)
      rw [left, shape, slash] at host
      have member : 47 ∈ line.address.host := by
        rw [← host]
        exact List.mem_cons_self
      exact line.host_plain.1 member
    · -- the port has at most five digits, so the host would be shorter
      have plain : 47 ∉ line.authority.drop size := fun inside =>
        line.authority_plain (List.mem_of_mem_drop inside)
      rw [line.hostText_read left plain] at host
      have shorter := (List.takeWhile_sublist (· != 58) (l := line.authority.drop size)).length_le
      rw [host, List.length_drop] at shorter
      have digits : (portText line.port).length ≤ 6 := by
        cases line.port with
        | none => decide
        | some number =>
          have bound := number.toNat_lt
          exact Nat.succ_le_succ (length_decimal_le (by decide) (by omega))
      have whole : line.authority.length = line.host.length + (portText line.port).length :=
        List.length_append
      have kept : line.address.host.length = line.host.length := rfl
      omega
  · -- the address begins within the path, so the file would be shorter
    have shorter := file_length line.command ((line.authority ++ line.path).drop size) line.version
    have kept : line.address.file = line.path := if_neg pathSome
    rw [file, kept, List.length_drop, List.length_append] at shorter
    omega

/-- An address of which a slash of the scheme is left is not read back: the file starts there. -/
theorem slash_left (long : 1 < line.path.length) :
    splitAddress line.command (47 :: (line.authority ++ line.path)) line.version ≠
      line.address := by
  intro same
  have file := congrArg (List.length ∘ Address.file) same
  have kept : line.address.file = line.path := if_neg (List.ne_nil_of_length_pos (by omega))
  have whole : (splitAddress line.command (47 :: (line.authority ++ line.path))
      line.version).file = 47 :: (line.authority ++ line.path) := splitAddress_file _ _ _
  simp only [Function.comp_apply, whole, kept, List.length_cons, List.length_append] at file
  omega

/-- A path that holds a scheme has at least two bytes. -/
theorem path_long {name : Bytes} (inside : name ++ [58, 47, 47] <:+: line.path) :
    1 < line.path.length := by
  have shorter := inside.length_le
  rw [List.length_append] at shorter
  exact lt_of_lt_of_le (by simp) shorter

/-- What the path holds, the address holds. -/
theorem infix_target {needle : Bytes} (inside : needle <:+: line.path) :
    needle <:+: line.authority ++ line.path ∧ needle <:+: line.target := by
  have address : needle <:+: line.authority ++ line.path :=
    inside.trans (List.suffix_append line.authority _).isInfix
  exact ⟨address, address.trans (List.suffix_append line.scheme.text _).isInfix⟩

/-- A request line in whose address another scheme is found is not read back. -/
theorem not_readsBack (other : ¬ line.SchemeFirst) :
    splitAddress line.command (skipScheme line.target) line.version ≠ line.address := by
  unfold SchemeFirst at other
  cases scheme : line.scheme with
  | absent =>
    rw [scheme] at other
    have whole : line.target = line.authority ++ line.path := by
      unfold target
      rw [scheme]
      rfl
    rw [whole]
    by_cases http : bytes "http://" <:+: line.path
    · rw [skipScheme_http (line.infix_target http).1]
      exact line.cut_short le_rfl (@path_long _ (bytes "http") http)
    · have https : bytes "https://" <:+: line.path := by
        by_contra absent
        exact other ⟨http, absent⟩
      rw [skipScheme_https (mt (line.infix_path isSchemeName.1) http) (line.infix_target https).1]
      exact line.cut_short (by decide) (@path_long _ (bytes "https") https)
  | http =>
    rw [scheme] at other
    exact absurd trivial other
  | https =>
    rw [scheme] at other
    have http : bytes "http://" <:+: line.path := not_not.mp other
    -- seven of the eight bytes of the scheme are skipped
    have skipped : line.target.drop 7 = 47 :: (line.authority ++ line.path) := by
      unfold target
      rw [scheme]
      rfl
    rw [skipScheme_http (line.infix_target http).2, skipped]
    exact line.slash_left (@path_long _ (bytes "http") http)

/-- A request line is read back exactly when the search for a scheme finds the one in front of the
address, or none. -/
theorem readsBack_iff : line.ReadsBack ↔ line.SchemeFirst := by
  constructor
  · intro back
    by_contra other
    have read := back []
    rw [parseAddress_text] at read
    exact line.not_readsBack other (Option.some.inj read)
  · intro first rest
    rw [parseAddress_text, first.skipScheme, line.splitAddress_read]

/-- A request for a path that names a proxied address. -/
def embeddedUrl : RequestLine where
  command := bytes "GET"
  scheme := .absent
  host := bytes "www.example.com"
  port := none
  path := bytes "/?u=http://x"
  version := bytes "HTTP/1.1"
  command_word := by decide +kernel
  host_word := by decide +kernel
  host_plain := by decide +kernel
  port_some := by simp
  path_uncut := by decide +kernel
  path_starts := by decide +kernel
  version_word := by decide +kernel

/-- The host of a request loses seven letters to a scheme in its path. -/
theorem not_readsBack_embeddedUrl : ¬ embeddedUrl.ReadsBack ∧
    (parseAddress embeddedUrl.text).map Address.host = some (bytes "mple.com") := by
  have host : (parseAddress embeddedUrl.text).map Address.host = some (bytes "mple.com") := by
    decide +kernel
  refine ⟨fun back => ?_, host⟩
  have read := congrArg (Option.map Address.host) (back [])
  have wrong : (parseAddress (embeddedUrl.text ++ [0])).map Address.host ≠
      some (bytes "www.example.com") := by decide +kernel
  exact wrong read

end RequestLine

end TinyTools.Proxy
