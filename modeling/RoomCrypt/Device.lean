import RoomCrypt.Identifier
import RoomCrypt.Json.Form
import RoomCrypt.Suite

/-!
# Devices and cross-signing keys

What signatures of a backup are checked against: the devices of a user with the trust that was put
into them, and the master key of the user. How they were found and verified is not our concern.

The trust in a device is shared by all who hold the device. What holds it is a parameter.
-/

namespace RoomCrypt

/-- The trust that the user has put into a device. -/
inductive LocalTrust where
  | verified
  | blackListed
  | ignored
  | unset
deriving DecidableEq, Inhabited

namespace LocalTrust

/-- How a trust state is written. -/
def name : LocalTrust → String
  | verified => "Verified"
  | blackListed => "BlackListed"
  | ignored => "Ignored"
  | unset => "Unset"

/-- The trust state with a name. -/
def ofName? (name : String) : Option LocalTrust :=
  [verified, blackListed, ignored, unset].find? (·.name = name)

@[simp] theorem ofName?_name (trust : LocalTrust) : ofName? trust.name = some trust := by
  cases trust <;> decide

/-- The trust state as a value. -/
def toJson (trust : LocalTrust) : Json := .text trust.name

/-- Read a trust state: its name, or an object whose only member has that name and no value. -/
def ofJson? : Json → Option LocalTrust
  | .text name => ofName? name
  | .object [(name, .null)] => ofName? name
  | _ => none

instance : ToJson LocalTrust := ⟨toJson⟩

instance : OfJson LocalTrust := ⟨ofJson?⟩

end LocalTrust

/-- The trust in a device. -/
structure DeviceTrust where
  localTrust : LocalTrust
  /-- Has the owner of the device signed it? -/
  crossSigned : Bool
deriving DecidableEq, Inhabited

/-- A device is verified by the user, or through its owner's signature. -/
def DeviceTrust.isVerified (trust : DeviceTrust) : Bool :=
  trust.localTrust == .verified || trust.crossSigned

/-- A device and the keys that it has published. -/
structure Device (τ : Type) where
  /-- The owner. -/
  user : UserId
  /-- The identifier of the device, which only its owner's other devices may not share. -/
  deviceId : String
  signingKey : Ed25519Key
  identityKey : Curve25519Key
  /-- The trust in the device, or where it is kept. -/
  trust : τ
deriving DecidableEq

namespace Device

/-- The same device with its trust held otherwise. -/
def withTrust {τ υ : Type} (device : Device τ) (trust : υ) : Device υ :=
  { device with trust }

/-- Devices are the same if they agree in their owner, identifier and signing key. -/
def same {τ υ : Type} (a : Device τ) (b : Device υ) : Bool :=
  a.user = b.user ∧ a.deviceId = b.deviceId ∧ a.signingKey = b.signingKey

end Device

/-- The public cross-signing keys of a user. -/
structure CrossSigningKeys where
  user : UserId
  /-- The root of the trust in all devices of the user. -/
  masterKey : Ed25519Key
deriving DecidableEq

/-- Is a key name the text of the master key? Cross-signing keys are named by their own text. -/
def CrossSigningKeys.isMasterKey (keys : CrossSigningKeys) (name : String) : Bool :=
  keys.masterKey.toBase64 == name

end RoomCrypt
