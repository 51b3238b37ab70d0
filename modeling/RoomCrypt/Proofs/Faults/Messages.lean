import RoomCrypt.Message
import RoomCrypt.Megolm.SessionKey
import RoomCrypt.Proofs.Faults.Operations

/-!
# Messages and session keys cut into their parts

A message is cut from its end, at its length without the MAC and the signature, and a session key at fixed
places. One check of the length stands before all of it, so no cut can fault, whatever the bytes are.
-/

namespace RoomCrypt

/-! ### Messages -/

/-- Split off a tail of fixed length. -/
def splitTailGuarded (n : ℕ) (bytes : Bytes) : Checked (Bytes × Octets n) := do
  let place ← Checked.sub bytes.length n
  let (front, tail) ← Checked.split bytes place
  let tail ← Checked.exactly n tail
  pure (front, tail)

/-- A tail is split off bytes that are long enough. -/
theorem splitTailGuarded_eq (n : ℕ) {bytes : Bytes} (h : n ≤ bytes.length) :
    ∃ front tail, splitTail? n bytes = some (front, tail) ∧ splitTailGuarded n bytes = .ok (front, tail) ∧
      front.length = bytes.length - n := by
  have hlength : (bytes.drop (bytes.length - n)).length = n := by
    rw [List.length_drop]
    omega
  refine ⟨bytes.take (bytes.length - n), ⟨_, hlength⟩, ?_, ?_, ?_⟩
  · rw [splitTail?, Octets.ofBytes?, dif_pos hlength]
    rfl
  · rw [splitTailGuarded, Checked.sub_eq h]
    simp only [bind, Except.bind]
    rw [Checked.split_eq (Nat.sub_le _ _)]
    simp only []
    rw [Checked.exactly_eq hlength]
    rfl
  · rw [List.length_take]
    omega

/-- The fields of a body, behind its version byte. -/
def parseBodyGuarded (body : Bytes) : Checked (Option (List Wire.Field)) := do
  let fields ← Checked.slice body 1 body.length
  pure (Wire.parse? fields)

/-- A body that is not empty has a version byte. -/
theorem parseBodyGuarded_eq {body : Bytes} (h : 1 ≤ body.length) :
    parseBodyGuarded body = .ok (Wire.parse? (body.drop 1)) := by
  rw [parseBodyGuarded, Checked.slice_from h]
  rfl

/-- The length and the version are checked in front of all cuts: no byte is looked up that is not there, and what
comes behind the checks has bytes enough. -/
theorem checkedFront_eq {α : Type} {minLength : ℕ} (hmin : 0 < minLength) (bytes : Bytes)
    {guarded : Checked (Except MessageError α)} {decoded : Except MessageError α} :
    (minLength ≤ bytes.length → guarded = .ok decoded) →
    (if bytes.length < minLength then pure (.error (.tooShort minLength bytes.length))
      else do
        let version ← Checked.get bytes 0
        if version ≠ messageVersion then pure (.error (.unsupportedVersion version))
        else guarded : Checked (Except MessageError α)) =
      .ok (match bytes with
        | version :: _ =>
          if bytes.length < minLength then .error (.tooShort minLength bytes.length)
          else if version ≠ messageVersion then .error (.unsupportedVersion version)
          else decoded
        | [] => .error (.tooShort minLength 0)) := by
  intro h
  cases bytes with
  | nil =>
    rw [if_pos (show ([] : Bytes).length < minLength from hmin)]
    rfl
  | cons version rest =>
    have hfirst : Checked.get (version :: rest) 0 = .ok version := rfl
    by_cases hshort : (version :: rest).length < minLength
    · simp only [hshort, if_true]
      rfl
    · simp only [hshort, if_false, hfirst, bind, Except.bind]
      by_cases hversion : version ≠ messageVersion
      · rw [if_pos hversion, if_pos hversion]
        rfl
      · rw [if_neg hversion, if_neg hversion]
        exact h (Nat.not_lt.mp hshort)

/-- Decode a message to a device. -/
def OlmMessage.ofBytesGuarded (bytes : Bytes) : Checked (Except MessageError OlmMessage) := do
  if bytes.length < minLength then pure (.error (.tooShort minLength bytes.length))
  else do
    let version ← Checked.get bytes 0
    if version ≠ messageVersion then pure (.error (.unsupportedVersion version))
    else do
      let (body, mac) ← splitTailGuarded 8 bytes
      match ← parseBodyGuarded body with
      | some fields => pure (ofFields? fields body mac)
      | none => pure (.error .malformedFields)

/-- Decoding a message to a device does not fault. -/
theorem OlmMessage.ofBytesGuarded_eq (bytes : Bytes) : ofBytesGuarded bytes = .ok (ofBytes? bytes) := by
  refine checkedFront_eq (show 0 < minLength by decide) bytes fun hlong => ?_
  have hlong : 9 ≤ bytes.length := hlong
  obtain ⟨body, mac, hmodel, hsplit, hbody⟩ := splitTailGuarded_eq 8 (show 8 ≤ bytes.length by omega)
  rw [hmodel, hsplit]
  simp only [bind, Except.bind]
  rw [parseBodyGuarded_eq (by omega)]
  cases Wire.parse? (body.drop 1) <;> rfl

/-- Decode a message to a room. -/
def MegolmMessage.ofBytesGuarded (bytes : Bytes) : Checked (Except MessageError MegolmMessage) := do
  if bytes.length < minLength then pure (.error (.tooShort minLength bytes.length))
  else do
    let version ← Checked.get bytes 0
    if version ≠ messageVersion then pure (.error (.unsupportedVersion version))
    else do
      let (rest, signature) ← splitTailGuarded 64 bytes
      let (body, mac) ← splitTailGuarded 8 rest
      match ← parseBodyGuarded body with
      | some fields => pure (ofFields? fields body mac signature)
      | none => pure (.error .malformedFields)

/-- Decoding a message to a room does not fault. -/
theorem MegolmMessage.ofBytesGuarded_eq (bytes : Bytes) : ofBytesGuarded bytes = .ok (ofBytes? bytes) := by
  refine checkedFront_eq (show 0 < minLength by decide) bytes fun hlong => ?_
  have hlong : 73 ≤ bytes.length := hlong
  obtain ⟨rest, signature, hmodel, hsplit, hrest⟩ := splitTailGuarded_eq 64 (show 64 ≤ bytes.length by omega)
  obtain ⟨body, mac, hmodel', hsplit', hbody⟩ := splitTailGuarded_eq 8 (show 8 ≤ rest.length by omega)
  rw [hmodel, hsplit]
  simp only [bind, Except.bind]
  rw [hmodel', hsplit']
  simp only []
  rw [parseBodyGuarded_eq (by omega)]
  cases Wire.parse? (body.drop 1) <;> rfl

/-! ### Session keys -/

/-- A part of a part is a part. -/
theorem Octets.slice_slice {n : ℕ} (octets : Octets n) {start count inner length : ℕ} (h : start + count ≤ n)
    (hinner : inner + length ≤ count) :
    (octets.slice start count h).slice inner length hinner = octets.slice (start + inner) length (by omega) := by
  apply Octets.ext
  change ((((octets.bytes.drop start).take count).drop inner).take length) = (octets.bytes.drop (start + inner)).take length
  rw [List.drop_take, List.take_take, List.drop_drop, Nat.min_eq_left (by omega)]

namespace Megolm

/-- The place of a session key: four bytes, each looked up alone. -/
def indexGuarded (bytes : Bytes) : Checked UInt32 := do
  let first ← Checked.get bytes 1
  let second ← Checked.get bytes 2
  let third ← Checked.get bytes 3
  let fourth ← Checked.get bytes 4
  pure (Octets.toUInt32 ⟨[first, second, third, fourth], rfl⟩)

/-- There are such bytes behind the version. -/
theorem indexGuarded_eq {n : ℕ} (octets : Octets n) (h : 1 + 4 ≤ n) :
    indexGuarded octets.bytes = .ok (octets.slice 1 4 h).toUInt32 := by
  obtain ⟨bytes, rfl⟩ := octets
  match bytes with
  | _ :: _ :: _ :: _ :: _ :: _ => rfl

variable [Suite]

namespace ExportedKey

/-- Read the place, the ratchet and the signing key, which ends at a place of the bytes. -/
def ofFieldsGuarded (bytes : Bytes) (stop : ℕ) : Checked (Except SessionKeyError ExportedKey) := do
  let index ← indexGuarded bytes
  let ratchet ← Checked.part bytes 5 133 128
  let signingKey ← Checked.part bytes 133 stop 32
  match Ed25519Key.ofOctets? signingKey with
  | some signingKey => pure (.ok ⟨signingKey, ratchet, index⟩)
  | none => pure (.error .invalidPublicKey)

/-- All three are there if there are bytes enough. -/
theorem ofFieldsGuarded_eq {n : ℕ} (octets : Octets n) {stop : ℕ} (h : 1 + 164 ≤ n) (hstop : stop = 165) :
    ofFieldsGuarded octets.bytes stop = .ok (ofFields? (octets.slice 1 164 h)) := by
  simp only [ofFieldsGuarded, ofFields?, Octets.slice_slice, indexGuarded_eq octets (by omega),
    Checked.part_octets octets 5 128 (by omega) rfl, Checked.part_octets octets 133 32 (by omega) hstop, bind,
    Except.bind]
  cases Ed25519Key.ofOctets? (octets.slice 133 32 (by omega)) <;> rfl

/-- Decode a key. -/
def ofBytesGuarded (bytes : Bytes) : Checked (Except SessionKeyError ExportedKey) := do
  if bytes.length ≠ size then pure (.error (.length size bytes.length))
  else do
    let found ← Checked.get bytes 0
    if found ≠ version then pure (.error (.version version found))
    else ofFieldsGuarded bytes bytes.length

/-- Decoding a key does not fault. -/
theorem ofBytesGuarded_eq (bytes : Bytes) : ofBytesGuarded bytes = .ok (ofBytes? bytes) := by
  unfold ofBytesGuarded ofBytes? Octets.ofBytes?
  by_cases hlength : bytes.length = size
  · rw [if_neg (not_not_intro hlength), dif_pos hlength, Checked.get_zero (by rw [hlength]; decide)]
    by_cases hversion : bytes.headD 0 ≠ version
    · simp only [bind, Except.bind, if_pos hversion]
      rfl
    · simp only [bind, Except.bind, if_neg hversion]
      exact ofFieldsGuarded_eq ⟨bytes, hlength⟩ (by decide) hlength
  · rw [if_pos hlength, dif_neg hlength]
    rfl

end ExportedKey

namespace SharedKey

/-- Decode a key and verify its signature. -/
def ofBytesGuarded (bytes : Bytes) : Checked (Except SessionKeyError SharedKey) := do
  if bytes.length ≠ size then pure (.error (.length size bytes.length))
  else do
    let found ← Checked.get bytes 0
    if found ≠ version then pure (.error (.version version found))
    else do
      match ← ExportedKey.ofFieldsGuarded bytes 165 with
      | .error e => pure (.error e)
      | .ok key =>
        let signature ← Checked.part bytes 165 bytes.length 64
        let signed ← Checked.slice bytes 0 165
        if Suite.verify key.signingKey signed ⟨signature⟩ then pure (.ok ⟨key, ⟨signature⟩⟩)
        else pure (.error .invalidSignature)

/-- Decoding a shared key does not fault. -/
theorem ofBytesGuarded_eq (bytes : Bytes) : ofBytesGuarded bytes = .ok (ofBytes? bytes) := by
  unfold ofBytesGuarded ofBytes? Octets.ofBytes?
  by_cases hlength : bytes.length = size
  · have hfields := ExportedKey.ofFieldsGuarded_eq ⟨bytes, hlength⟩ (by decide) rfl
    have hsignature := Checked.part_octets ⟨bytes, hlength⟩ 165 64 (by decide) hlength
    have hsigned : Checked.slice bytes 0 165 = .ok (bytes.take 165) :=
      Checked.slice_eq (Nat.zero_le _) (by rw [hlength]; decide)
    rw [if_neg (not_not_intro hlength), dif_pos hlength, Checked.get_zero (by rw [hlength]; decide)]
    by_cases hversion : bytes.headD 0 ≠ version
    · simp only [bind, Except.bind, if_pos hversion]
      rfl
    · simp only [bind, Except.bind, if_neg hversion, hfields]
      cases ExportedKey.ofFields? (Octets.slice ⟨bytes, hlength⟩ 1 164 (by decide)) with
      | error e => rfl
      | ok key =>
        simp only [hsignature, hsigned]
        split <;> rfl
  · rw [if_pos hlength, dif_neg hlength]
    rfl

end SharedKey

end Megolm

end RoomCrypt
