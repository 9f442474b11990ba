import TinyTools.Lib.CString

/-!
# The address in a request line

The request line is cut into its words, the scheme is skipped, and the address is split into host,
port and file. The key of the cache is the host followed by the file. It determines both, except
that an address without a host is confused with one that begins with a slash; it says nothing of the
command and the port.
-/

namespace TinyTools.Proxy

open TinyTools.Lib

/-- What `parseAddress` writes to its arguments. -/
structure Address where
  /-- The method. -/
  command : Bytes
  /-- The host. -/
  host : Bytes
  /-- The port. -/
  port : UInt16
  /-- The path on the host. -/
  file : Bytes
  /-- The protocol version. -/
  version : Bytes
deriving DecidableEq

/-- The delimiters of a request line. -/
def lineToken : Bytes := bytes " \r\n"

/-- The pointer moves past the scheme. -/
def skipScheme (hpf : Bytes) : Bytes :=
  if (strstr (bytes "http://") hpf).isSome then hpf.drop 7
  else if (strstr (bytes "https://") hpf).isSome then hpf.drop 8
  else hpf

/-- The address once its first token is cut off at a slash: leading slashes are skipped by the
tokenizer, but the pointer to the address stays in front of them. -/
def hostText (hpf : Bytes) : Bytes :=
  hpf.takeWhile (· == 47) ++ (hpf.dropWhile (· == 47)).takeWhile (· != 47)

/-- The second part of `parseAddress`: host, port and file. -/
def splitAddress (command hpf version : Bytes) : Address :=
  let file := (strchr 47 hpf).getD (bytes "/")
  match strchr 58 (hostText hpf) with
  | some colon =>
    { command, file, version
      host := (hostText hpf).takeWhile (· != 58)
      port := UInt16.ofInt (atoi colon.tail) }
  | none =>
    { command, file, version
      host := hostText hpf
      port := if command = bytes "CONNECT" then 443 else 80 }

/-- `parseAddress`. -/
def parseAddress (url : Bytes) : Option Address := do
  let (command, rest) ← strtok lineToken (cString url)
  let (hpf, rest) ← strtok lineToken rest
  let (version, _) ← strtok lineToken rest
  return splitAddress command (skipScheme hpf) version

/-- The array as `parseAddress` leaves it behind an accepted line: each of the three words is cut
off, and the address in the second one is cut at the slash behind its host and at the colon. -/
def cutUrl (url : Bytes) : Bytes :=
  ((do
    let first ← strtokAt lineToken url 0
    let second ← strtokAt lineToken first.memory first.next
    let third ← strtokAt lineToken second.memory second.next
    let word := cString (third.memory.drop second.start)
    let hpf := second.start + (word.length - (skipScheme word).length)
    let cut := ((strtokAt (bytes "/") third.memory hpf).map TokenAt.memory).getD third.memory
    let host := cString (cut.drop hpf)
    if host.contains 58 then return cut.set (hpf + (host.takeWhile (· != 58)).length) 0
    else return cut) : Option Bytes).getD url

/-- The key under which a response is stored. -/
def Address.key (a : Address) : Bytes := a.host ++ a.file

/-! ## What the key determines -/

/-- The address begins with a slash, so that its host does. -/
def Address.Rooted (a : Address) : Prop := a.host.head? = some 47

instance (a : Address) : Decidable a.Rooted := inferInstanceAs (Decidable (_ = _))

/-- Two addresses name the same resource of the same origin. -/
def Address.SameTarget (a b : Address) : Prop :=
  a.command = b.command ∧ a.host = b.host ∧ a.port = b.port ∧ a.file = b.file

/-- The text in front of the first byte of a kind, and the rest. -/
theorem takeWhile_stop {p : UInt8 → Bool} {front back : Bytes} (all : ∀ byte ∈ front, p byte = true)
    (stop : ∀ byte ∈ back.head?, p byte = false) :
    (front ++ back).takeWhile p = front ∧ (front ++ back).dropWhile p = back := by
  rw [List.takeWhile_append_of_pos all, List.dropWhile_append_of_pos all]
  cases back with
  | nil => exact ⟨List.append_nil front, rfl⟩
  | cons byte rest =>
    have stops := stop byte rfl
    rw [List.takeWhile_cons, List.dropWhile_cons, stops]
    exact ⟨List.append_nil front, rfl⟩

/-- The host ends in front of a colon. -/
theorem splitAddress_host (command hpf version : Bytes) :
    (splitAddress command hpf version).host = (hostText hpf).takeWhile (· != 58) := by
  unfold splitAddress
  cases found : strchr 58 (hostText hpf) with
  | some colon => rfl
  | none =>
    refine (List.takeWhile_eq_self_iff.mpr fun byte inside => ?_).symm
    unfold strchr at found
    split at found
    · rename_i passed
      exact List.dropWhile_eq_nil_iff.mp passed byte inside
    · cases found

/-- The file starts at the first slash. -/
theorem splitAddress_file (command hpf version : Bytes) :
    (splitAddress command hpf version).file = (strchr 47 hpf).getD (bytes "/") := by
  unfold splitAddress
  split <;> rfl

/-- The file of an address starts with a slash. -/
theorem strchr_slash (hpf : Bytes) : ((strchr 47 hpf).getD (bytes "/")).head? = some 47 := by
  unfold strchr
  cases found : hpf.dropWhile (· != 47) with
  | nil => rfl
  | cons byte rest =>
    have stop := List.head?_dropWhile_not (· != 47) hpf
    rw [found] at stop
    simpa using stop

/-- An address that begins with a slash: slashes, a host, and the rest of the file. -/
structure IsRooted (host file slashes name rest : Bytes) : Prop where
  /-- There is a slash. -/
  some_ : slashes ≠ []
  /-- There are only slashes. -/
  all : ∀ byte ∈ slashes, byte = 47
  /-- The name holds no slash. -/
  plain : 47 ∉ name
  /-- The name holds no colon. -/
  bare : 58 ∉ name
  /-- Without a name the rest begins with a colon, if with anything. -/
  ends : name = [] → ∀ byte ∈ rest.head?, byte = 58
  /-- The host. -/
  host_eq : host = slashes ++ name
  /-- The file. -/
  file_eq : file = slashes ++ name ++ rest

/-- Where no name precedes the first colon, what follows begins with the colon, if with anything. -/
theorem unnamed_colon {word : Bytes} (stop : word.head? ≠ some 47)
    (unnamed : (word.takeWhile (· != 47)).takeWhile (· != 58) = []) :
    ∀ byte ∈ ((word.takeWhile (· != 47)).dropWhile (· != 58) ++
      word.dropWhile (· != 47)).head?, byte = 58 := by
  intro byte first
  cases word with
  | nil => cases first
  | cons head tail =>
    have notSlash : (head != 47) = true := by simpa using stop
    rw [List.takeWhile_cons, if_pos notSlash, List.takeWhile_cons] at unnamed
    have colon : head = 58 := by
      by_contra other
      rw [if_pos (by simpa using other)] at unnamed
      cases unnamed
    rw [List.takeWhile_cons, if_pos notSlash, List.dropWhile_cons, colon,
      if_neg (by decide)] at first
    exact (Option.some.inj first).symm

/-- An address begins with a slash or has a host without any. -/
theorem splitAddress_shape (command hpf version : Bytes) :
    (47 ∉ (splitAddress command hpf version).host) ∨
      ∃ slashes name rest, IsRooted (splitAddress command hpf version).host
        (splitAddress command hpf version).file slashes name rest := by
  rw [splitAddress_host, splitAddress_file, hostText]
  have stop : (hpf.dropWhile (· == 47)).head? ≠ some 47 := by
    intro slash
    have passed := List.head?_dropWhile_not (· == 47) hpf
    rw [slash] at passed
    exact absurd passed (by decide)
  generalize slashesEq : hpf.takeWhile (· == 47) = slashes
  generalize wordEq : hpf.dropWhile (· == 47) = word at stop
  have whole : hpf = slashes ++ word := by
    rw [← slashesEq, ← wordEq, List.takeWhile_append_dropWhile]
  have all : ∀ byte ∈ slashes, byte = 47 := by
    intro byte inside
    rw [← slashesEq] at inside
    simpa using List.mem_takeWhile_imp inside
  have noColon : ∀ byte ∈ slashes, (byte != 58) = true := by
    intro byte inside
    rw [all byte inside]
    rfl
  have host : (slashes ++ word.takeWhile (· != 47)).takeWhile (· != 58) =
      slashes ++ (word.takeWhile (· != 47)).takeWhile (· != 58) :=
    List.takeWhile_append_of_pos noColon
  rw [host]
  have plain : 47 ∉ (word.takeWhile (· != 47)).takeWhile (· != 58) := by
    intro inside
    have kept := List.mem_takeWhile_imp ((List.takeWhile_sublist _).subset inside)
    exact absurd kept (by decide)
  cases slashes with
  | nil => exact Or.inl plain
  | cons slash others =>
    right
    have slashEq : slash = 47 := all slash List.mem_cons_self
    -- the rest of the file: behind the name within the first token, and the other tokens
    refine ⟨slash :: others, (word.takeWhile (· != 47)).takeWhile (· != 58),
      (word.takeWhile (· != 47)).dropWhile (· != 58) ++ word.dropWhile (· != 47),
      ⟨List.cons_ne_nil _ _, all, plain, fun inside => ?_, unnamed_colon stop, rfl, ?_⟩⟩
    · exact absurd (List.mem_takeWhile_imp inside) (by decide)
    · have first : (strchr 47 hpf).getD (bytes "/") = hpf := by
        rw [whole, strchr, List.cons_append, List.dropWhile_cons, slashEq, if_neg (by decide)]
        rfl
      rw [first, whole, List.append_assoc, ← List.append_assoc (List.takeWhile _ _),
        List.takeWhile_append_dropWhile, List.takeWhile_append_dropWhile]

/-- The key of an address with a host splits at its first slash. -/
theorem key_split_plain {host file : Bytes} (plain : 47 ∉ host) (starts : file.head? = some 47) :
    (host ++ file).takeWhile (· != 47) = host ∧ (host ++ file).dropWhile (· != 47) = file := by
  apply takeWhile_stop
  · intro byte inside
    simpa using ne_of_mem_of_not_mem inside plain
  · intro byte first
    rw [starts] at first
    rw [← Option.some.inj first]
    rfl

/-- The slashes in front of the key of a rooted address, and what follows them. -/
theorem IsRooted.key_split {host file slashes name rest : Bytes}
    (rooted : IsRooted host file slashes name rest) :
    (name ≠ [] → (host ++ file).takeWhile (· == 47) = slashes ∧
      (host ++ file).dropWhile (· == 47) = name ++ file) ∧
    (name = [] → (host ++ file).takeWhile (· == 47) = slashes ++ slashes ∧
      (host ++ file).dropWhile (· == 47) = rest) := by
  have all : ∀ byte ∈ slashes, (byte == 47) = true := by
    intro byte inside
    simpa using rooted.all byte inside
  rw [rooted.host_eq]
  constructor
  · intro named
    obtain ⟨head, others, shape⟩ := List.exists_cons_of_ne_nil named
    rw [List.append_assoc]
    apply takeWhile_stop all
    intro byte first
    rw [shape] at first
    obtain rfl : head = byte := Option.some.inj first
    simpa using ne_of_mem_of_not_mem (shape ▸ List.mem_cons_self) rooted.plain
  · intro none
    rw [rooted.file_eq, none, List.append_nil, ← List.append_assoc]
    refine takeWhile_stop (fun byte inside => ?_) fun byte first => ?_
    · exact (List.mem_append.mp inside).elim (all byte) (all byte)
    · rw [rooted.ends none byte first]
      rfl

/-- Two rooted addresses with the same key have the same host and file. -/
theorem IsRooted.key_injective
    {host file slashes name rest host' file' slashes' name' rest' : Bytes}
    (left : IsRooted host file slashes name rest)
    (right : IsRooted host' file' slashes' name' rest') (same : host ++ file = host' ++ file') :
    host = host' ∧ file = file' := by
  -- a name starts with neither a slash nor a colon, so both keys have one or neither
  have unnamed {host file slashes name rest host' file' slashes' name' rest' : Bytes}
      (left : IsRooted host file slashes name rest)
      (right : IsRooted host' file' slashes' name' rest') (same : host ++ file = host' ++ file')
      (named : name ≠ []) : name' ≠ [] := by
    intro none
    have tails := (left.key_split.1 named).2.symm.trans (same ▸ (right.key_split.2 none).2)
    obtain ⟨byte, others, shape⟩ := List.exists_cons_of_ne_nil named
    have first : rest'.head? = some byte := by rw [← tails, shape]; rfl
    have colon := right.ends none byte first
    exact left.bare (shape ▸ colon ▸ List.mem_cons_self)
  by_cases named : name = []
  · have named' : name' = [] := by
      by_contra other
      exact unnamed right left same.symm other named
    obtain ⟨runs, tails⟩ := left.key_split.2 named
    obtain ⟨runs', tails'⟩ := right.key_split.2 named'
    have doubled : slashes ++ slashes = slashes' ++ slashes' := runs.symm.trans (same ▸ runs')
    have restEq : rest = rest' := tails.symm.trans (same ▸ tails')
    have lengths : slashes.length = slashes'.length := by
      have both := congrArg List.length doubled
      rw [List.length_append, List.length_append] at both
      omega
    have slashesEq := (List.append_inj doubled lengths).1
    rw [left.host_eq, right.host_eq, left.file_eq, right.file_eq, named, named', slashesEq, restEq]
    exact ⟨rfl, rfl⟩
  · obtain ⟨runs, tails⟩ := left.key_split.1 named
    obtain ⟨runs', tails'⟩ := right.key_split.1 (unnamed left right same named)
    have slashesEq : slashes = slashes' := runs.symm.trans (same ▸ runs')
    have namesAndFiles : name ++ file = name' ++ file' := tails.symm.trans (same ▸ tails')
    have starts {host file slashes name rest : Bytes}
        (rooted : IsRooted host file slashes name rest) :
        file.head? = some 47 := by
      obtain ⟨byte, others, shape⟩ := List.exists_cons_of_ne_nil rooted.some_
      rw [rooted.file_eq, shape, rooted.all byte (shape ▸ List.mem_cons_self)]
      rfl
    obtain ⟨namesL, filesL⟩ := key_split_plain left.plain (starts left)
    obtain ⟨namesR, filesR⟩ := key_split_plain right.plain (starts right)
    have namesEq : name = name' := namesL.symm.trans (namesAndFiles ▸ namesR)
    have filesEq : file = file' := filesL.symm.trans (namesAndFiles ▸ filesR)
    rw [left.host_eq, right.host_eq, slashesEq, namesEq]
    exact ⟨rfl, filesEq⟩

/-- Accepted addresses with the same key and the same beginning have the same host and file. -/
theorem key_injective {u v : Bytes} {a b : Address} (acceptedU : parseAddress u = some a)
    (acceptedV : parseAddress v = some b) (same : a.key = b.key) (kind : a.Rooted ↔ b.Rooted) :
    a.host = b.host ∧ a.file = b.file := by
  have shape {u : Bytes} {a : Address} (accepted : parseAddress u = some a) :
      a.file.head? = some 47 ∧ ((47 ∉ a.host) ∨
        ∃ slashes name rest, IsRooted a.host a.file slashes name rest) := by
    unfold parseAddress at accepted
    obtain ⟨⟨command, rest⟩, -, accepted⟩ := Option.bind_eq_some_iff.mp accepted
    obtain ⟨⟨hpf, rest'⟩, -, accepted⟩ := Option.bind_eq_some_iff.mp accepted
    obtain ⟨⟨version, rest''⟩, -, accepted⟩ := Option.bind_eq_some_iff.mp accepted
    obtain rfl := Option.some.inj accepted
    refine ⟨?_, splitAddress_shape command (skipScheme hpf) version⟩
    rw [splitAddress_file]
    exact strchr_slash _
  have unrooted {a : Address} (plain : 47 ∉ a.host) : ¬ a.Rooted := fun starts =>
    plain (List.mem_of_mem_head? starts)
  have begins {a : Address} {slashes name rest : Bytes}
      (rooted : IsRooted a.host a.file slashes name rest) : a.Rooted := by
    obtain ⟨byte, others, shape⟩ := List.exists_cons_of_ne_nil rooted.some_
    rw [Address.Rooted, rooted.host_eq, shape, rooted.all byte (shape ▸ List.mem_cons_self)]
    rfl
  obtain ⟨startsA, plainA | ⟨_, _, _, rootedA⟩⟩ := shape acceptedU
  · obtain ⟨startsB, plainB | ⟨_, _, _, rootedB⟩⟩ := shape acceptedV
    · obtain ⟨hostA, fileA⟩ := key_split_plain plainA startsA
      obtain ⟨hostB, fileB⟩ := key_split_plain plainB startsB
      unfold Address.key at same
      exact ⟨hostA.symm.trans (same ▸ hostB), fileA.symm.trans (same ▸ fileB)⟩
    · exact absurd (kind.mpr (begins rootedB)) (unrooted plainA)
  · obtain ⟨-, plainB | ⟨_, _, _, rootedB⟩⟩ := shape acceptedV
    · exact absurd (kind.mp (begins rootedA)) (unrooted plainB)
    · exact rootedA.key_injective rootedB same

/-- Accepted requests with the same cache key name the same target exactly when they agree in the
command, in the port, and in whether their address begins with a slash. -/
theorem key_sameTarget_iff {u v : Bytes} {a b : Address} (acceptedU : parseAddress u = some a)
    (acceptedV : parseAddress v = some b) (same : a.key = b.key) :
    a.SameTarget b ↔ a.command = b.command ∧ a.port = b.port ∧ (a.Rooted ↔ b.Rooted) := by
  constructor
  · rintro ⟨command, host, port, -⟩
    refine ⟨command, port, ?_⟩
    rw [Address.Rooted, Address.Rooted, host]
  · rintro ⟨command, port, kind⟩
    obtain ⟨host, file⟩ := key_injective acceptedU acceptedV same kind
    exact ⟨command, host, port, file⟩

end TinyTools.Proxy
