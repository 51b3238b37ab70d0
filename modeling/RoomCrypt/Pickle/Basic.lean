import RoomCrypt.Failure
import RoomCrypt.Bytes

/-!
# Pickles

Sessions are stored as byte strings of a fixed layout: their fields one after the other, each value
with the size that `ToPickle.size` states in advance. Writing fills a buffer from its start and
checks the size before it writes anything. Reading takes values from the front of a byte string and
leaves the rest.

A list is its length followed by its elements. A value inside another one is written into what is
left of the buffer, and a value that cannot be read leaves the bytes as they were, while the fields
that were read or written before it stay so.
-/

namespace RoomCrypt

/-- What can be wrong with the contents of a pickle. -/
inductive PickleFlaw where
  /-- A truth value is neither 0 nor 1. -/
  | invalidBool
  /-- A list has too many elements to be counted in 32 bits. -/
  | listTooLong
  /-- A list has more elements than the reader allows. -/
  | tooManyElements
  /-- Bytes are left after the value. -/
  | trailingBytes
  /-- A signing key is not a point of the curve. -/
  | invalidEd25519Key
  /-- A public ratchet key is not the one of its secret. -/
  | keyPairMismatch
  /-- The latest ratchet of a group session lies before its initial one. -/
  | latestBeforeInitial
  /-- The text around a pickle is not Base64. -/
  | invalidBase64
deriving DecidableEq

/-- What a flaw is called. -/
def PickleFlaw.message : PickleFlaw → String
  | invalidBool => "invalid boolean value"
  | listTooLong => "list is too long"
  | tooManyElements => "list has more elements than allowed"
  | trailingBytes => "trailing bytes after the pickle"
  | invalidEd25519Key => "invalid Ed25519 public key"
  | keyPairMismatch => "the ratchet public key doesn't match the secret key"
  | latestBeforeInitial => "the latest ratchet lies before the initial one"
  | invalidBase64 => "invalid base64"

/-- Why a value cannot be written or read. -/
inductive PickleError where
  /-- The buffer cannot hold the value. -/
  | bufferTooShort (needed available : Nat)
  /-- The bytes end too early. -/
  | truncated (needed available : Nat)
  /-- The bytes write no value. -/
  | malformed (flaw : PickleFlaw)
  /-- The format of the pickle is not known. -/
  | unsupportedVersion (version : UInt32)
deriving DecidableEq

/-- The text of an error. -/
def PickleError.message : PickleError → String
  | bufferTooShort needed available =>
    s!"the pickle target is too short, {needed} bytes needed, {available} available"
  | truncated needed available =>
    s!"the pickle is truncated, {needed} more bytes needed, {available} left"
  | malformed flaw => s!"the pickle is malformed: {flaw.message}"
  | unsupportedVersion version => s!"the pickle version {version} is not supported"

/-- The word for an error. -/
def PickleError.kind : PickleError → String
  | bufferTooShort _ _ => "BufferTooShort"
  | truncated _ _ => "Truncated"
  | malformed _ => "Malformed"
  | unsupportedVersion _ => "UnsupportedVersion"

instance : Failure PickleError := ⟨PickleError.kind, fun error => some error.message⟩

/-- A buffer that is being filled. -/
structure PickleBuffer where
  /-- The bytes written so far, the last one first. -/
  done : Bytes
  /-- The rest of the buffer. -/
  room : Bytes
deriving DecidableEq

namespace PickleBuffer

/-- A buffer with nothing written into it. -/
def ofTarget (target : Bytes) : PickleBuffer := ⟨[], target⟩

/-- The whole buffer. -/
def target (buffer : PickleBuffer) : Bytes :=
  buffer.done.reverse ++ buffer.room

/-- The number of bytes written so far. -/
def position (buffer : PickleBuffer) : Nat :=
  buffer.done.length

end PickleBuffer

/-- A step of writing: it fills the buffer further, or fails. -/
abbrev Pickler := ExceptT PickleError (StateM PickleBuffer)

/-- A step of reading: it takes bytes from the front, or fails. -/
abbrev Unpickler := ExceptT PickleError (StateM Bytes)

/-- Values that have a pickle. -/
class ToPickle (α : Type) where
  /-- The number of bytes of the pickle. -/
  size : α → Nat
  /-- Write the value. -/
  write : α → Pickler Unit

/-- Values that can be read from a pickle. -/
class OfPickle (α : Type) where
  /-- Read a value. -/
  read : Unpickler α

namespace Pickler

/-- Write a byte string. -/
def bytes (bytes : Bytes) : Pickler Unit := do
  let buffer ← get
  match Bytes.splitAt? bytes.length buffer.room with
  | some (_, room) => set (⟨bytes.reverse ++ buffer.done, room⟩ : PickleBuffer)
  | none => throw (.bufferTooShort bytes.length buffer.room.length)

/-- Write a 32-bit number, highest byte first. -/
def uint32 (n : UInt32) : Pickler Unit :=
  bytes (.ofUInt32 n)

/-- Write a truth value as one byte. -/
def bool (b : Bool) : Pickler Unit :=
  bytes [if b then 1 else 0]

/-- Write a field of a fixed length: zeros stand for a byte string of another length. They are made
only if there is room for them. -/
def fixed (field : Bytes) (length : Nat) : Pickler Unit := do
  let buffer ← get
  if Bytes.isShorter buffer.room length then
    throw (.bufferTooShort length buffer.room.length)
  else bytes (if field.length = length then field else List.replicate length 0)

/-- Start to fill a buffer that has room for a number of bytes. -/
def start? (target : Bytes) (needed : Nat) : Except PickleError PickleBuffer :=
  if Bytes.isShorter target needed then .error (.bufferTooShort needed target.length)
  else .ok (.ofTarget target)

/-- Write a value at the start of a buffer. The answer is the number of bytes written, and the
buffer as it is then. -/
def encode {α : Type} [ToPickle α] (value : α) (target : Bytes) : Except PickleError Nat × Bytes :=
  match start? target (ToPickle.size value) with
  | .error e => (.error e, target)
  | .ok buffer =>
    let (result, buffer) := (ToPickle.write value).run.run buffer
    (result.map fun _ => buffer.position, buffer.target)

/-- Write a value into what is left of the buffer. -/
def value {α : Type} [ToPickle α] (value : α) : Pickler Unit := do
  let buffer ← get
  match encode value buffer.room with
  | (.ok count, room) =>
    set (⟨(room.take count).reverse ++ buffer.done, room.drop count⟩ : PickleBuffer)
  | (.error e, room) =>
    set ({ buffer with room } : PickleBuffer)
    throw e

/-- Write values one after the other. -/
def values {α : Type} [ToPickle α] : List α → Pickler Unit
  | [] => pure ()
  | item :: rest => do
    value item
    values rest

/-- Write a list: the number of its elements, then the elements. -/
def list {α : Type} [ToPickle α] (items : List α) : Pickler Unit := do
  if items.length < UInt32.size then
    uint32 (UInt32.ofNat items.length)
    values items
  else throw (.malformed .listTooLong)

end Pickler

/-- The number of bytes of values that are written one after the other. -/
def valuesPickleSize {α : Type} [ToPickle α] : List α → Nat
  | [] => 0
  | item :: rest => ToPickle.size item + valuesPickleSize rest

/-- The number of bytes of a list of values. -/
def listPickleSize {α : Type} [ToPickle α] (items : List α) : Nat :=
  4 + valuesPickleSize items

/-- The pickle of a value. -/
def toPickle {α : Type} [ToPickle α] (value : α) : Bytes :=
  let (result, buffer) := Pickler.encode value (List.replicate (ToPickle.size value) 0)
  match result with
  | .ok count => buffer.take count
  | .error _ => buffer

namespace Unpickler

/-- Read a number of bytes. -/
def octets (n : Nat) : Unpickler (Octets n) := do
  let source ← get
  match Octets.splitAt? n source with
  | some (taken, rest) =>
    set rest
    pure taken
  | none => throw (.truncated n source.length)

/-- Read a 32-bit number, highest byte first. -/
def uint32 : Unpickler UInt32 :=
  Octets.toUInt32 <$> octets 4

/-- Read a truth value from one byte. -/
def bool : Unpickler Bool := do
  let byte ← octets 1
  if byte.bytes = [0] then pure false
  else if byte.bytes = [1] then pure true
  else throw (.malformed .invalidBool)

/-- Read a value from the front of a byte string; the answer has what is left. -/
def decodeWith {α : Type} (read : Unpickler α) (source : Bytes) :
    Except PickleError (α × Bytes) :=
  let (result, rest) := read.run.run source
  result.map fun value => (value, rest)

/-- Read a value from a byte string that has nothing else. -/
def decodeAllWith {α : Type} (read : Unpickler α) (source : Bytes) : Except PickleError α := do
  let (value, rest) ← decodeWith read source
  if rest.isEmpty then pure value else throw (.malformed .trailingBytes)

/-- Read a value with its reader; if that fails, nothing is taken. -/
def nested {α : Type} (read : Unpickler α) : Unpickler α := do
  let source ← get
  match decodeWith read source with
  | .ok (value, rest) =>
    set rest
    pure value
  | .error e => throw e

/-- Read a value; if that fails, nothing is taken. -/
def value (α : Type) [OfPickle α] : Unpickler α :=
  nested OfPickle.read

/-- Read a number of values. -/
def values (α : Type) [OfPickle α] : Nat → Unpickler (List α)
  | 0 => pure []
  | count + 1 => do
    let item ← value α
    let rest ← values α count
    pure (item :: rest)

/-- Read a list of at most `max` elements. -/
def list (α : Type) [OfPickle α] (max : Nat) : Unpickler (List α) := do
  let count ← uint32
  if max < count.toNat then throw (.malformed .tooManyElements)
  else values α count.toNat

end Unpickler

/-- Read a value from the front of a byte string; the answer has what is left. -/
def ofPickle? (α : Type) [OfPickle α] (source : Bytes) : Except PickleError (α × Bytes) :=
  Unpickler.decodeWith OfPickle.read source

/-- Read a value from a byte string that has nothing else. -/
def ofWholePickle? (α : Type) [OfPickle α] (source : Bytes) : Except PickleError α :=
  Unpickler.decodeAllWith OfPickle.read source

instance : ToPickle UInt32 where
  size _ := 4
  write := Pickler.uint32

instance : OfPickle UInt32 where
  read := Unpickler.uint32

instance : ToPickle Bool where
  size _ := 1
  write := Pickler.bool

instance : OfPickle Bool where
  read := Unpickler.bool

end RoomCrypt
