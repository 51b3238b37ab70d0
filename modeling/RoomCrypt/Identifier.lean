/-!
# Identifiers

The texts that name rooms, users and the keys of signatures. A room identifier starts with `!`, and
a user identifier is `@localpart:server`, where the server is a host name or an address, with or
without the number of a service. None is longer than 255 bytes. The identifier of a signing key is
an algorithm and a name, joined by a colon.
-/

namespace RoomCrypt

/-- The most bytes that an identifier may have. -/
def maxIdentifierBytes : Nat := 255

/-- A decimal digit. -/
def isAsciiDigit (c : Char) : Bool :=
  '0' ≤ c && c ≤ '9'

/-- A letter of the Latin alphabet or a digit. -/
def isAsciiAlphanumeric (c : Char) : Bool :=
  isAsciiDigit c || ('a' ≤ c && c ≤ 'z') || ('A' ≤ c && c ≤ 'Z')

/-- A hexadecimal digit. -/
def isHexDigit (c : Char) : Bool :=
  isAsciiDigit c || ('a' ≤ c && c ≤ 'f') || ('A' ≤ c && c ≤ 'F')

/-- The parts of a text between the separators. -/
def splitOnChar (separator : Char) : List Char → List (List Char)
  | [] => [[]]
  | c :: rest =>
    if c = separator then [] :: splitOnChar separator rest
    else
      match splitOnChar separator rest with
      | first :: others => (c :: first) :: others
      | [] => [[c]]

/-- Is the text the number of a service: a decimal number that fits 16 bits? A plus sign and any
number of zeros may stand in front. -/
def isServiceNumber (s : List Char) : Bool :=
  let digits := match s with
    | '+' :: rest => rest
    | _ => s
  !digits.isEmpty && digits.all isAsciiDigit &&
    digits.foldl (fun n c => 10 * n + (c.toNat - 48)) 0 < UInt16.size

/-- Is the text an address of four decimal bytes? -/
def isIpv4 (s : List Char) : Bool :=
  let parts := splitOnChar '.' s
  parts.length == 4 && parts.all fun part =>
    !part.isEmpty && part.length ≤ 3 && part.all isAsciiDigit &&
      (part.length == 1 || part.head? != some '0') &&
      part.foldl (fun n c => 10 * n + (c.toNat - 48)) 0 < 256

/-- How many 16-bit groups a list of address parts writes, if it is well formed. The last part may
be an address of four bytes, which stands for two groups. -/
def groupCount? : List (List Char) → Option Nat
  | [] => some 0
  | [part] =>
    if !part.isEmpty && part.length ≤ 4 && part.all isHexDigit then some 1
    else if isIpv4 part then some 2
    else none
  | part :: rest =>
    if !part.isEmpty && part.length ≤ 4 && part.all isHexDigit then
      (groupCount? rest).map (· + 1)
    else none

/-- The parts of an address on both sides of the first double colon, if there is one. -/
def splitOnDoubleColon : List Char → List Char × Option (List Char)
  | ':' :: ':' :: rest => ([], some rest)
  | c :: rest =>
    let (before, after) := splitOnDoubleColon rest
    (c :: before, after)
  | [] => ([], none)

/-- The number of groups of one side of an address; an empty side has none. -/
def sideCount? (s : List Char) : Option Nat :=
  if s.isEmpty then some 0 else groupCount? (splitOnChar ':' s)

/-- Is the text an address of eight 16-bit groups, where a double colon stands for at least one
group of zeros? -/
def isIpv6 (s : List Char) : Bool :=
  match splitOnDoubleColon s with
  | (whole, none) => groupCount? (splitOnChar ':' whole) == some 8
  | (before, some after) =>
    if before.contains '.' then false
    else
      match sideCount? before, sideCount? after with
      | some m, some n => m + n ≤ 7
      | _, _ => false

/-- Is the text a host name or an address, with or without the number of a service? -/
def isServerName (s : List Char) : Bool :=
  if s.isEmpty then false
  else
    let (isHost, rest) :=
      match s with
      | '[' :: inner =>
        (inner.contains ']' && isIpv6 (inner.takeWhile (· ≠ ']')),
          (inner.dropWhile (· ≠ ']')).drop 1)
      | _ =>
        ((s.takeWhile (· ≠ ':')).all fun c => isAsciiAlphanumeric c || c == '-' || c == '.',
          s.dropWhile (· ≠ ':'))
    isHost &&
      match rest with
      | [] => true
      | ':' :: number => isServiceNumber number
      | _ => false

/-- Is the text a user identifier? -/
def isUserId (text : String) : Bool :=
  text.utf8ByteSize ≤ maxIdentifierBytes &&
    match text.toList with
    | '@' :: rest =>
      let localpart := rest.takeWhile (· ≠ ':')
      !localpart.isEmpty && localpart.all (fun c => 0x21 ≤ c.toNat && c.toNat ≤ 0x7e) &&
        match rest.dropWhile (· ≠ ':') with
        | _ :: server => isServerName server
        | [] => false
    | _ => false

/-- Is the text a room identifier? -/
def isRoomId (text : String) : Bool :=
  text.utf8ByteSize ≤ maxIdentifierBytes && text.toList.head? == some '!'

/-- Is the text the identifier of a signing key? The place of its first colon is kept in one byte,
counted in bytes from zero, and zero stands for no place. -/
def isKeyId (text : String) : Bool :=
  let place := (String.ofList (text.toList.takeWhile (· ≠ ':'))).utf8ByteSize
  text.toList.contains ':' && place % 256 != 0

/-- The algorithm of a key identifier: what stands before the first colon. -/
def keyAlgorithm (keyId : String) : String :=
  String.ofList (keyId.toList.takeWhile (· ≠ ':'))

/-- The name of a key identifier: what stands after the first colon. -/
def keyName (keyId : String) : String :=
  String.ofList ((keyId.toList.dropWhile (· ≠ ':')).drop 1)

/-- The algorithm of signing keys, as key identifiers and lists of keys name it. -/
def signingAlgorithm : String := "ed25519"

/-- The identifier of a user. -/
structure UserId where
  text : String
  valid : isUserId text = true
deriving DecidableEq

/-- The identifier of a room. -/
structure RoomId where
  text : String
  valid : isRoomId text = true
deriving DecidableEq

/-- The user with the given identifier, if it is one. -/
def UserId.ofString? (text : String) : Option UserId :=
  if h : isUserId text = true then some ⟨text, h⟩ else none

/-- The room with the given identifier, if it is one. -/
def RoomId.ofString? (text : String) : Option RoomId :=
  if h : isRoomId text = true then some ⟨text, h⟩ else none

@[simp] theorem RoomId.ofString?_text (room : RoomId) : RoomId.ofString? room.text = some room := by
  simp [RoomId.ofString?, room.valid]

@[simp] theorem UserId.ofString?_text (user : UserId) : UserId.ofString? user.text = some user := by
  simp [UserId.ofString?, user.valid]

end RoomCrypt
