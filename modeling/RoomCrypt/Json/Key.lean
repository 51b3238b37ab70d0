import RoomCrypt.Json.Form
import RoomCrypt.Identifier
import RoomCrypt.Suite
import RoomCrypt.Time

/-!
# Keys, identifiers and times in JSON

A public key is written as its Base64 text, or in some records as the list of its bytes.
-/

namespace RoomCrypt

namespace Curve25519Key

/-- The key as its text. -/
def toJson (key : Curve25519Key) : Json := .text key.toBase64

/-- Read the text of a key. -/
def ofJson? (value : Json) : Option Curve25519Key :=
  value.text? >>= ofBase64?

/-- The key as the list of its bytes. -/
def toByteList (key : Curve25519Key) : Json :=
  .array (key.octets.bytes.map fun b => .ofNat b.toNat)

/-- Read the list of the bytes of a key. -/
def ofByteList? (value : Json) : Option Curve25519Key := do
  let bytes ← value.list? Json.uint8?
  (Octets.ofBytes? 32 bytes).map Curve25519Key.mk

end Curve25519Key

/-- Read a room identifier. -/
def RoomId.ofJson? (value : Json) : Option RoomId :=
  value.text? >>= RoomId.ofString?

instance : ToJson RoomId := ⟨fun room => .text room.text⟩
instance : OfJson RoomId := ⟨RoomId.ofJson?⟩
instance : ToJson UserId := ⟨fun user => .text user.text⟩
instance : ToJson Curve25519Key := ⟨Curve25519Key.toJson⟩
instance : OfJson Curve25519Key := ⟨Curve25519Key.ofJson?⟩
instance : ToJson Ed25519Key := ⟨fun key => .text key.toBase64⟩

/-- Read a time. -/
def Time.ofJson? (value : Json) : Option Time :=
  value.natBelow? Time.bound >>= Time.ofNat?

instance : ToJson Time := ⟨fun time => .ofNat time.count⟩
instance : OfJson Time := ⟨Time.ofJson?⟩

/-- A dictionary of texts as a value. -/
def Dict.toJson (d : Dict String) : Json :=
  .ofDict (d.map .text)

/-- A list of texts as a value. -/
def Json.ofTexts (texts : List String) : Json :=
  .array (texts.map .text)

/-- Read a dictionary of texts. -/
def Dict.ofJson? (value : Json) : Option (Dict String) :=
  value.dict? (fun _ => true) Json.text?

end RoomCrypt
