import RoomCrypt.Proofs.Fields
import RoomCrypt.Proofs.Laws
import RoomCrypt.Proofs.Text.Base64
import RoomCrypt.Proofs.Olm.Commitment
import RoomCrypt.Proofs.Megolm.Exchange

/-!
# Messages and their bytes

A message keeps the bytes that it was decoded from, however its fields were written: they are its body and its MAC,
and for a room its signature. So a byte string is decoded as a message exactly if it is the one that the message is
encoded as and the fields of its body are those of the message. What we encode is decoded as it was, and what was
decoded is encoded as it came; no byte of it is left out by the MAC, and none by the signature.
-/

namespace RoomCrypt

/-- A tail is split off exactly if it is there. -/
theorem splitTail?_eq_some_iff {n : ℕ} {bytes front : Bytes} {tail : Octets n} :
    splitTail? n bytes = some (front, tail) ↔ bytes = front ++ tail.bytes := by
  unfold splitTail?
  simp only [Option.map_eq_some_iff, Prod.mk.injEq]
  constructor
  · rintro ⟨tail, htail, rfl, rfl⟩
    rw [Octets.bytes_of_ofBytes? htail, List.take_append_drop]
  · rintro rfl
    have hlength : (front ++ tail.bytes).length - n = front.length := by
      rw [List.length_append, tail.length_eq, Nat.add_sub_cancel]
    exact ⟨tail, by rw [hlength, List.drop_left, Octets.ofBytes?_bytes], by rw [hlength, List.take_left], rfl⟩

/-- The front and the tail are the first bytes and the last ones. -/
theorem take_drop_of_append {n : ℕ} {bytes front : Bytes} {tail : Octets n} (h : front ++ tail.bytes = bytes) :
    bytes.take (bytes.length - n) = front ∧ bytes.drop (bytes.length - n) = tail.bytes := by
  have hlength : bytes.length - n = front.length := by
    rw [← h, List.length_append, tail.length_eq, Nat.add_sub_cancel]
  rw [hlength, ← h]
  exact ⟨List.take_left, List.drop_left⟩

/-- What stands in front of a tail that is not everything begins with the first byte. -/
theorem front_eq_cons {first : UInt8} {rest front tail : Bytes} (h : first :: rest = front ++ tail)
    (hlong : tail.length < (first :: rest).length) : front = first :: front.drop 1 := by
  cases front with
  | nil =>
    rw [h, List.nil_append] at hlong
    exact absurd hlong (Nat.lt_irrefl _)
  | cons b front =>
    obtain ⟨rfl, -⟩ := List.cons.inj h
    rfl

/-- What is decoded from a text is encoded as the bytes of the text, if it is encoded as the bytes that it is decoded
from. -/
theorem of_text_eq_ok_iff {α : Type} {ofBytes? : Bytes → Except MessageError α} {toBytes : α → Bytes}
    (hkeeps : ∀ bytes message, ofBytes? bytes = .ok message → toBytes message = bytes) {text : String} {message : α} :
    (match Base64.decode? text with
      | some bytes => ofBytes? bytes
      | none => .error .invalidBase64) = .ok message ↔
        ofBytes? (toBytes message) = .ok message ∧ Base64.decode? text = some (toBytes message) := by
  cases Base64.decode? text with
  | none => simp
  | some bytes =>
    simp only [Option.some.injEq]
    constructor
    · intro h
      have heq := hkeeps bytes message h
      exact ⟨heq.symm ▸ h, heq.symm⟩
    · rintro ⟨h, rfl⟩
      exact h

namespace OlmMessage

/-- The fields of a message: the last ones with their numbers, whatever else is there. -/
def HasFields (message : OlmMessage) (fields : List Wire.Field) : Prop :=
  Wire.LastIs Wire.Value.bytes? 1 fields message.ratchetKey.octets.bytes ∧
    Wire.LastIs Wire.Value.uint32? 2 fields message.index ∧ Wire.LastIs Wire.Value.bytes? 4 fields message.ciphertext

/-- Fields, a body and a MAC make exactly the message that has them. -/
theorem ofFields?_eq_ok_iff {fields : List Wire.Field} {body : Bytes} {mac : Octets 8} {message : OlmMessage} :
    ofFields? fields body mac = .ok message ↔
      message.HasFields fields ∧ message.body = body ∧ message.mac = mac := by
  simp only [HasFields, ← Wire.lastBytes?_eq_some_some_iff, ← Wire.lastUInt32?_eq_some_some_iff]
  constructor
  · intro h
    unfold ofFields? at h
    split at h
    · next hkey hindex hciphertext =>
      split at h
      · next hoctets =>
        cases h
        obtain ⟨bytes, rfl, hoctets⟩ := Option.bind_eq_some_iff.mp hoctets
        rw [Octets.bytes_of_ofBytes? hoctets]
        exact ⟨⟨hkey, hindex, hciphertext⟩, rfl, rfl⟩
      all_goals cases h
    · cases h
  · rintro ⟨⟨hkey, hindex, hciphertext⟩, rfl, rfl⟩
    simp [ofFields?, hkey, hindex, hciphertext]

/-- A byte string is decoded as a message exactly if the message is encoded as it and has the fields that stand behind
the version. -/
theorem ofBytes?_eq_ok_iff {bytes : Bytes} {message : OlmMessage} :
    ofBytes? bytes = .ok message ↔ message.toBytes = bytes ∧ ∃ written fields,
      message.body = messageVersion :: written ∧ Wire.parse? written = some fields ∧ message.HasFields fields := by
  constructor
  · intro h
    unfold ofBytes? at h
    split at h
    · next version rest =>
      split at h
      · cases h
      · next hlong =>
        split at h
        · cases h
        · next hversion =>
          split at h
          · next body mac hsplit =>
            split at h
            · next fields hfields =>
              obtain ⟨hholds, rfl, rfl⟩ := ofFields?_eq_ok_iff.mp h
              have hbytes := splitTail?_eq_some_iff.mp hsplit
              have htail : message.mac.bytes.length < (version :: rest).length := by
                rw [Octets.length_bytes]
                exact Nat.not_lt.mp hlong
              have hbody := front_eq_cons hbytes htail
              rw [not_not.mp hversion] at hbody
              exact ⟨hbytes.symm, _, fields, hbody, hfields, hholds⟩
            · cases h
          · cases h
    · cases h
  · rintro ⟨rfl, written, fields, hbody, hfields, hholds⟩
    have hbytes : message.toBytes = messageVersion :: (written ++ message.mac.bytes) := by
      rw [toBytes, hbody, List.cons_append]
    have hlong : ¬ (messageVersion :: (written ++ message.mac.bytes)).length < minLength := by
      simp only [List.length_cons, List.length_append, Octets.length_bytes, minLength]
      omega
    have hsplit : splitTail? 8 (messageVersion :: (written ++ message.mac.bytes)) = some (message.body, message.mac) :=
      splitTail?_eq_some_iff.mpr hbytes.symm
    have hdrop : message.body.drop 1 = written := by rw [hbody, List.drop_one, List.tail_cons]
    rw [hbytes]
    simp only [ofBytes?, hlong, if_false, ne_eq, not_true_eq_false, hsplit, hdrop, hfields]
    exact ofFields?_eq_ok_iff.mpr ⟨hholds, rfl, rfl⟩

/-- The fields of a message are read from its body. -/
theorem parse?_encodeBody (key : Curve25519Key) (index : UInt32) {ciphertext : Bytes}
    (hlength : ciphertext.length < 2 ^ 64) :
    Wire.parse? ((encodeBody key index ciphertext).drop 1) =
      some [⟨1, .delimited key.octets.bytes⟩, ⟨2, .number index.toNat⟩, ⟨4, .delimited ciphertext⟩] := by
  have hindex : index.toNat < 2 ^ 64 := Nat.lt_trans index.toNat_lt (by decide)
  have hkey : key.octets.bytes.length < 2 ^ 64 := by
    rw [Octets.length_bytes]
    decide
  have hfields : Wire.readFields 4 (Wire.bytesField 1 key.octets.bytes ++
      (Wire.numberField 2 index.toNat ++ (Wire.bytesField 4 ciphertext ++ []))) =
        some [⟨1, .delimited key.octets.bytes⟩, ⟨2, .number index.toNat⟩, ⟨4, .delimited ciphertext⟩] :=
    Wire.readFields_bytesField (by decide) (by decide) hkey
      (Wire.readFields_numberField (by decide) (by decide) hindex
        (Wire.readFields_bytesField (by decide) (by decide) hlength rfl))
  have hdrop : (encodeBody key index ciphertext).drop 1 = Wire.bytesField 1 key.octets.bytes ++
      (Wire.numberField 2 index.toNat ++ (Wire.bytesField 4 ciphertext ++ [])) := by
    simp [encodeBody]
  rw [hdrop]
  exact Wire.parse?_of_readFields hfields

/-- A message whose body holds its fields as we write them is decoded from its bytes as it was. -/
theorem ofBytes?_toBytes {message : OlmMessage}
    (hbody : message.body = encodeBody message.ratchetKey message.index message.ciphertext)
    (hlength : message.ciphertext.length < 2 ^ 64) : ofBytes? message.toBytes = .ok message := by
  refine ofBytes?_eq_ok_iff.mpr ⟨rfl, _, _, hbody, parse?_encodeBody _ _ hlength, ?_, ?_, ?_⟩
  · exact ⟨[], rfl⟩
  · exact ⟨[], congrArg (fun n => [some n]) UInt32.ofNat_toNat⟩
  · exact ⟨[], rfl⟩

/-- A message is decoded from a text if it is decoded from its bytes and the text is its own, up to padding. -/
theorem ofBase64?_eq_ok_iff {text : String} {message : OlmMessage} :
    ofBase64? text = .ok message ↔ ofBytes? message.toBytes = .ok message ∧
      ∃ padding ≤ (4 - message.toBase64.toList.length % 4) % 4,
        text.toList = message.toBase64.toList ++ List.replicate padding '=' := by
  rw [toBase64, ← Base64.decode?_eq_some_iff]
  exact of_text_eq_ok_iff fun _ _ h => (ofBytes?_eq_ok_iff.mp h).1

end OlmMessage

namespace MegolmMessage

/-- The fields of a message: the last ones with their numbers, whatever else is there. -/
def HasFields (message : MegolmMessage) (fields : List Wire.Field) : Prop :=
  Wire.LastIs Wire.Value.uint32? 1 fields message.index ∧ Wire.LastIs Wire.Value.bytes? 2 fields message.ciphertext

/-- Fields, a body, a MAC and a signature make exactly the message that has them. -/
theorem ofFields?_eq_ok_iff {fields : List Wire.Field} {body : Bytes} {mac : Octets 8} {signature : Octets 64}
    {message : MegolmMessage} :
    ofFields? fields body mac signature = .ok message ↔
      message.HasFields fields ∧ message.body = body ∧ message.mac = mac ∧ message.signature.octets = signature := by
  simp only [HasFields, ← Wire.lastBytes?_eq_some_some_iff, ← Wire.lastUInt32?_eq_some_some_iff]
  constructor
  · intro h
    unfold ofFields? at h
    split at h
    · next hindex hciphertext =>
      split at h
      · cases h
        exact ⟨⟨hindex, hciphertext⟩, rfl, rfl, rfl⟩
      all_goals cases h
    · cases h
  · rintro ⟨⟨hindex, hciphertext⟩, rfl, rfl, rfl⟩
    simp [ofFields?, hindex, hciphertext]

/-- A byte string is decoded as a message exactly if the message is encoded as it and has the fields that stand behind
the version. -/
theorem ofBytes?_eq_ok_iff {bytes : Bytes} {message : MegolmMessage} :
    ofBytes? bytes = .ok message ↔ message.toBytes = bytes ∧ ∃ written fields,
      message.body = messageVersion :: written ∧ Wire.parse? written = some fields ∧ message.HasFields fields := by
  constructor
  · intro h
    unfold ofBytes? at h
    split at h
    · next version others =>
      split at h
      · cases h
      · next hlong =>
        split at h
        · cases h
        · next hversion =>
          split at h
          · next rest signature hsignature =>
            split at h
            · next body mac hmac =>
              split at h
              · next fields hfields =>
                obtain ⟨hholds, rfl, rfl, rfl⟩ := ofFields?_eq_ok_iff.mp h
                have hbytes := splitTail?_eq_some_iff.mp hsignature
                rw [splitTail?_eq_some_iff.mp hmac] at hbytes
                have htail : (message.mac.bytes ++ message.signature.octets.bytes).length <
                    (version :: others).length := by
                  rw [List.length_append, Octets.length_bytes, Octets.length_bytes]
                  exact Nat.not_lt.mp hlong
                have hbody := front_eq_cons (hbytes.trans (List.append_assoc _ _ _)) htail
                rw [not_not.mp hversion] at hbody
                exact ⟨hbytes.symm, _, fields, hbody, hfields, hholds⟩
              · cases h
            · cases h
          · cases h
    · cases h
  · rintro ⟨rfl, written, fields, hbody, hfields, hholds⟩
    obtain ⟨rest, hrest⟩ : ∃ rest, rest = written ++ message.mac.bytes ++ message.signature.octets.bytes := ⟨_, rfl⟩
    have hbytes : message.toBytes = messageVersion :: rest := by
      rw [toBytes, hbody, hrest, List.cons_append, List.cons_append]
    have hlong : ¬ (messageVersion :: rest).length < minLength := by
      simp only [hrest, List.length_cons, List.length_append, Octets.length_bytes, minLength]
      omega
    have hsignature : splitTail? 64 (messageVersion :: rest) = some (message.signedBytes, message.signature.octets) :=
      splitTail?_eq_some_iff.mpr hbytes.symm
    have hmac : splitTail? 8 message.signedBytes = some (message.body, message.mac) := splitTail?_eq_some_iff.mpr rfl
    have hdrop : message.body.drop 1 = written := by rw [hbody, List.drop_one, List.tail_cons]
    rw [hbytes]
    simp only [ofBytes?, hlong, if_false, ne_eq, not_true_eq_false, hsignature, hmac, hdrop, hfields]
    exact ofFields?_eq_ok_iff.mpr ⟨hholds, rfl, rfl, rfl⟩

/-- The fields of a message are read from its body. -/
theorem parse?_encodeBody (index : UInt32) {ciphertext : Bytes} (hlength : ciphertext.length < 2 ^ 64) :
    Wire.parse? ((encodeBody index ciphertext).drop 1) =
      some [⟨1, .number index.toNat⟩, ⟨2, .delimited ciphertext⟩] := by
  have hindex : index.toNat < 2 ^ 64 := Nat.lt_trans index.toNat_lt (by decide)
  have hfields : Wire.readFields 3 (Wire.numberField 1 index.toNat ++ (Wire.bytesField 2 ciphertext ++ [])) =
      some [⟨1, .number index.toNat⟩, ⟨2, .delimited ciphertext⟩] :=
    Wire.readFields_numberField (by decide) (by decide) hindex
      (Wire.readFields_bytesField (by decide) (by decide) hlength rfl)
  have hdrop : (encodeBody index ciphertext).drop 1 =
      Wire.numberField 1 index.toNat ++ (Wire.bytesField 2 ciphertext ++ []) := by
    simp [encodeBody]
  rw [hdrop]
  exact Wire.parse?_of_readFields hfields

/-- A message whose body holds its index and its ciphertext is decoded from its bytes as it was. -/
theorem ofBytes?_toBytes {message : MegolmMessage} (hbody : message.body = encodeBody message.index message.ciphertext)
    (hlength : message.ciphertext.length < 2 ^ 64) : ofBytes? message.toBytes = .ok message := by
  refine ofBytes?_eq_ok_iff.mpr ⟨rfl, _, _, hbody, parse?_encodeBody _ hlength, ?_, ?_⟩
  · exact ⟨[], congrArg (fun n => [some n]) UInt32.ofNat_toNat⟩
  · exact ⟨[], rfl⟩

/-- A message is decoded from a text if it is decoded from its bytes and the text is its own, up to padding. -/
theorem ofBase64?_eq_ok_iff {text : String} {message : MegolmMessage} :
    ofBase64? text = .ok message ↔ ofBytes? message.toBytes = .ok message ∧
      ∃ padding ≤ (4 - message.toBase64.toList.length % 4) % 4,
        text.toList = message.toBase64.toList ++ List.replicate padding '=' := by
  rw [toBase64, ← Base64.decode?_eq_some_iff]
  exact of_text_eq_ok_iff fun _ _ h => (ofBytes?_eq_ok_iff.mp h).1

end MegolmMessage

variable [Suite]

open Olm Megolm

/-- The MAC that is checked is made over all bytes but the last eight, which are to be it: a key refuses the message
exactly if they are not, and no ratchet decrypts it without. -/
def OlmMessage.MacCovers (message : OlmMessage) (bytes : Bytes) : Prop :=
  (∀ key : MessageKey, key.decrypt message = .error .invalidMac ↔
      (Suite.hmac key.cipher.macKey.bytes (bytes.take (bytes.length - 8))).bytes.take 8 ≠
        bytes.drop (bytes.length - 8)) ∧
    ∀ (ratchet : Olm.Ratchet) plain after, ratchet.decrypt message = .ok (plain, after) →
      ∃ key, ratchet.namedKey? message = some key ∧
        (Suite.hmac key.cipher.macKey.bytes (bytes.take (bytes.length - 8))).bytes.take 8 =
          bytes.drop (bytes.length - 8)

/-- The signature that is checked is made over all bytes but the last 64, which are to be it, and the MAC over all but
the last 72. A receiver refuses the message exactly if the signature does not verify, a ratchet if the MAC is wrong,
and no receiver decrypts it without both. -/
def MegolmMessage.MacAndSignatureCover (message : MegolmMessage) (bytes : Bytes) : Prop :=
  let signed := bytes.take (bytes.length - 64)
  let mac (ratchet : Megolm.Ratchet) :=
    (Suite.hmac ratchet.cipher.macKey.bytes (bytes.take (bytes.length - 72))).bytes.take 8
  message.signature.octets.bytes = bytes.drop (bytes.length - 64) ∧
    (∀ receiver : Receiver, receiver.decrypt message = .error .invalidSignature ↔
      Suite.verify receiver.signingKey signed message.signature = false) ∧
    (∀ ratchet : Megolm.Ratchet, Receiver.decryptAt ratchet message = .error .invalidMac ↔
      mac ratchet ≠ (bytes.drop (bytes.length - 72)).take 8) ∧
    ∀ (receiver : Receiver) text after, receiver.decrypt message = .ok (text, after) →
      Suite.verify receiver.signingKey signed message.signature = true ∧
        mac (receiver.ratchetFor message) = (bytes.drop (bytes.length - 72)).take 8

/-- A key refuses a MAC exactly if it is not its own. -/
theorem Olm.MessageKey.decrypt_eq_invalidMac_iff (key : MessageKey) (message : OlmMessage) :
    key.decrypt message = .error .invalidMac ↔
      (Suite.hmac key.cipher.macKey.bytes message.body).bytes.take 8 ≠ message.mac.bytes := by
  have hmac : key.cipher.mac message.body = message.mac ↔
      (Suite.hmac key.cipher.macKey.bytes message.body).bytes.take 8 = message.mac.bytes := Octets.ext_iff
  rw [ne_eq, ← hmac]
  unfold decrypt
  split
  · next h => cases key.cipher.decrypt? message.ciphertext <;> simp [h]
  · next h => simp [h]

/-- So does a ratchet. -/
theorem Megolm.Receiver.decryptAt_eq_invalidMac_iff (ratchet : Megolm.Ratchet) (message : MegolmMessage) :
    decryptAt ratchet message = .error .invalidMac ↔
      (Suite.hmac ratchet.cipher.macKey.bytes message.body).bytes.take 8 ≠ message.mac.bytes := by
  have hmac : ratchet.cipher.mac message.body = message.mac ↔
      (Suite.hmac ratchet.cipher.macKey.bytes message.body).bytes.take 8 = message.mac.bytes := Octets.ext_iff
  rw [ne_eq, ← hmac]
  unfold decryptAt
  dsimp only
  split
  · next h => cases ratchet.cipher.decrypt? message.ciphertext <;> simp [h]
  · next h => simp [h]

theorem Megolm.Receiver.decryptAt_ne_invalidSignature (ratchet : Megolm.Ratchet) (message : MegolmMessage) :
    decryptAt ratchet message ≠ .error .invalidSignature := by
  unfold decryptAt
  dsimp only
  split
  · split <;> nofun
  · nofun

/-- A receiver refuses a signature exactly if it does not verify. -/
theorem Megolm.Receiver.decrypt_eq_invalidSignature_iff (receiver : Receiver) (message : MegolmMessage) :
    receiver.decrypt message = .error .invalidSignature ↔
      Suite.verify receiver.signingKey message.signedBytes message.signature = false := by
  rw [decrypt_eq]
  cases hverify : Suite.verify receiver.signingKey message.signedBytes message.signature with
  | false => simp
  | true =>
    rw [if_pos rfl]
    split
    · simp
    · have hne := decryptAt_ne_invalidSignature (receiver.ratchetFor message) message
      cases hplain : decryptAt (receiver.ratchetFor message) message with
      | ok plain => simp [Except.map]
      | error e => simpa [Except.map, hplain] using hne

/-- What a receiver has decrypted was signed and has the MAC of its ratchet. -/
theorem Megolm.Receiver.verified_of_decrypt {receiver after : Receiver} {message : MegolmMessage}
    {text : DecryptedMessage} (h : receiver.decrypt message = .ok (text, after)) :
    Suite.verify receiver.signingKey message.signedBytes message.signature = true ∧
      (Suite.hmac (receiver.ratchetFor message).cipher.macKey.bytes message.body).bytes.take 8 = message.mac.bytes := by
  have hsignature : Suite.verify receiver.signingKey message.signedBytes message.signature = true := by
    rw [← Bool.not_eq_false, ← decrypt_eq_invalidSignature_iff, h]
    nofun
  refine ⟨hsignature, ?_⟩
  by_contra hmac
  rw [decrypt_eq, (decryptAt_eq_invalidMac_iff ..).mpr hmac, if_pos hsignature] at h
  split at h <;> cases h

/-- The MAC of a message to a device covers the bytes that it was decoded from. -/
theorem OlmMessage.macCovers {bytes : Bytes} {message : OlmMessage} (h : ofBytes? bytes = .ok message) :
    message.MacCovers bytes := by
  obtain ⟨hbody, hmac⟩ := take_drop_of_append (ofBytes?_eq_ok_iff.mp h).1
  unfold MacCovers
  rw [hbody, hmac]
  refine ⟨fun key => key.decrypt_eq_invalidMac_iff message, fun ratchet plain after hdecrypt => ?_⟩
  obtain ⟨key, hnamed, hplain⟩ := ((Ratchet.decrypt_eq_ok_iff ..).mp hdecrypt).namedKey
  exact ⟨key, hnamed, ((MessageKey.decrypt_eq_ok_iff ..).mp hplain).1.symm⟩

/-- So do the MAC and the signature of a message to a room. -/
theorem MegolmMessage.macAndSignatureCover {bytes : Bytes} {message : MegolmMessage}
    (h : ofBytes? bytes = .ok message) : message.MacAndSignatureCover bytes := by
  have hbytes : message.signedBytes ++ message.signature.octets.bytes = bytes := (ofBytes?_eq_ok_iff.mp h).1
  obtain ⟨hsigned, hsignature⟩ := take_drop_of_append hbytes
  have htail : message.body ++ (message.mac.append message.signature.octets).bytes = bytes :=
    (List.append_assoc _ _ _).symm.trans hbytes
  obtain ⟨hbody, hmac⟩ := take_drop_of_append htail
  have hfirst : (bytes.drop (bytes.length - 72)).take 8 = message.mac.bytes :=
    (congrArg (List.take 8) hmac).trans (List.take_left' message.mac.length_eq)
  unfold MacAndSignatureCover
  rw [hsigned, hsignature, hbody, hfirst]
  exact ⟨rfl, fun receiver => receiver.decrypt_eq_invalidSignature_iff message,
    fun ratchet => Receiver.decryptAt_eq_invalidMac_iff ratchet message,
    fun receiver text after hdecrypt => Receiver.verified_of_decrypt hdecrypt⟩

/-- The formats of messages neither lose nor hide bytes. Numbers may be written in more groups than they need, and what
is read as fields is made of parts that hold one of them each. A message that we write is decoded from its bytes and
from its text as it was, whatever its fields are; the length of its ciphertext is a 64-bit number. A byte string is
decoded as a message, however its fields were written, exactly if the message is encoded as it and has the last fields
with their numbers that stand behind the version. All of its bytes are then covered by the MAC, and for a room by the
signature, but for these themselves. And a text is decoded as a message exactly if it is that of the message, up to
the padding, and the message is decoded from its bytes. -/
theorem messages_keep_every_byte :
    (∀ bytes n rest, Wire.varint? bytes = some (n, rest) ↔
      n < 2 ^ 64 ∧ ∃ count < 10, n < 2 ^ (7 * count + 7) ∧ bytes = Wire.groups count n ++ rest) ∧
    (∀ written fields, Wire.parse? written = some fields ↔ ∃ parts, written = parts.flatten ∧
      List.Forall₂ (fun part field => Wire.parse? part = some [field]) parts fields) ∧
    (∀ key index ciphertext mac, ciphertext.length < 2 ^ 64 →
      let message : OlmMessage := ⟨key, index, ciphertext, OlmMessage.encodeBody key index ciphertext, mac⟩
      OlmMessage.ofBytes? message.toBytes = .ok message ∧ OlmMessage.ofBase64? message.toBase64 = .ok message) ∧
    (∀ index ciphertext mac signature, ciphertext.length < 2 ^ 64 →
      let message : MegolmMessage := ⟨index, ciphertext, MegolmMessage.encodeBody index ciphertext, mac, signature⟩
      MegolmMessage.ofBytes? message.toBytes = .ok message ∧
        MegolmMessage.ofBase64? message.toBase64 = .ok message) ∧
    (∀ bytes message, OlmMessage.ofBytes? bytes = .ok message ↔ message.toBytes = bytes ∧ ∃ written fields,
      message.body = messageVersion :: written ∧ Wire.parse? written = some fields ∧ message.HasFields fields) ∧
    (∀ bytes message, MegolmMessage.ofBytes? bytes = .ok message ↔ message.toBytes = bytes ∧ ∃ written fields,
      message.body = messageVersion :: written ∧ Wire.parse? written = some fields ∧ message.HasFields fields) ∧
    (∀ bytes message, OlmMessage.ofBytes? bytes = .ok message → message.MacCovers bytes) ∧
    (∀ bytes message, MegolmMessage.ofBytes? bytes = .ok message → message.MacAndSignatureCover bytes) ∧
    (∀ text message, OlmMessage.ofBase64? text = .ok message ↔ OlmMessage.ofBytes? message.toBytes = .ok message ∧
      ∃ padding ≤ (4 - message.toBase64.toList.length % 4) % 4,
        text.toList = message.toBase64.toList ++ List.replicate padding '=') ∧
    ∀ text message, MegolmMessage.ofBase64? text = .ok message ↔
      MegolmMessage.ofBytes? message.toBytes = .ok message ∧
        ∃ padding ≤ (4 - message.toBase64.toList.length % 4) % 4,
          text.toList = message.toBase64.toList ++ List.replicate padding '=' := by
  refine ⟨fun _ _ _ => Wire.varint?_eq_some_iff, fun _ _ => Wire.parse?_eq_some_iff,
    fun key index ciphertext mac hlength => ?_, fun index ciphertext mac signature hlength => ?_,
    fun _ _ => OlmMessage.ofBytes?_eq_ok_iff, fun _ _ => MegolmMessage.ofBytes?_eq_ok_iff,
    fun _ _ => OlmMessage.macCovers, fun _ _ => MegolmMessage.macAndSignatureCover,
    fun _ _ => OlmMessage.ofBase64?_eq_ok_iff, fun _ _ => MegolmMessage.ofBase64?_eq_ok_iff⟩
  · intro message
    have hbytes : OlmMessage.ofBytes? message.toBytes = .ok message := OlmMessage.ofBytes?_toBytes rfl hlength
    exact ⟨hbytes, OlmMessage.ofBase64?_eq_ok_iff.mpr ⟨hbytes, 0, Nat.zero_le _, (List.append_nil _).symm⟩⟩
  · intro message
    have hbytes : MegolmMessage.ofBytes? message.toBytes = .ok message := MegolmMessage.ofBytes?_toBytes rfl hlength
    exact ⟨hbytes, MegolmMessage.ofBase64?_eq_ok_iff.mpr ⟨hbytes, 0, Nat.zero_le _, (List.append_nil _).symm⟩⟩

end RoomCrypt

namespace RoomCrypt

open Olm Megolm
open scoped Suite.Evaluation

/-- A ratchet key, and the ratchet that waits for its first message. -/
def writtenKey : Curve25519Key := ⟨.ofNatLE 32 9⟩

def writtenRatchet : Olm.Ratchet := .ofResponder [5] writtenKey

/-- Bytes before the fields that count: a field and a group that we do not know. -/
def unknownFields : Bytes :=
  [0x3d, 1, 2, 3, 4, 0x3b, 0x08, 1, 0x3c]

/-- The first message of the ratchet key, written as we never write it: what we do not know, a ciphertext that does
not count, the place in three groups, and the ratchet key last, with its number in two groups. -/
def writtenMessage : OlmMessage :=
  let cipher := (RootKey.ofSharedSecret [5]).2.messageKey.cipher
  let ciphertext := cipher.encrypt [1, 2, 3]
  let body := messageVersion :: unknownFields ++ [0x22, 1, 7, 0x10, 0x80, 0x80, 0] ++ Wire.bytesField 4 ciphertext ++
    [0x8a, 0, 32] ++ writtenKey.octets.bytes
  ⟨writtenKey, 0, ciphertext, body, cipher.mac body⟩

/-- A room session. -/
def writtenSession : OutboundSession :=
  .ofParts ⟨.ofNatLE 32 1, .ofNatLE 32 2, .ofNatLE 32 3, .ofNatLE 32 4, 300⟩ ⟨.ofNatLE 32 5⟩

/-- Its first message, written with what we do not know, the ciphertext first and a place that does not count. -/
def writtenRoomMessage : MegolmMessage :=
  let cipher := writtenSession.ratchet.cipher
  let ciphertext := cipher.encrypt [4, 5]
  let body := messageVersion :: unknownFields ++ Wire.bytesField 2 ciphertext ++ [0x08, 1] ++ Wire.numberField 1 300
  let mac := cipher.mac body
  ⟨300, ciphertext, body, mac, Suite.sign writtenSession.seed (body ++ mac.bytes)⟩

/-- Both are read for what they say, and what is checked covers all that is unusual about them. An empty text at place
0 is decoded as it was. -/
theorem messages_keep_every_byte_unusual :
    (writtenRatchet.decrypt writtenMessage).map (·.1) = .ok [1, 2, 3] ∧
      (∃ key, writtenRatchet.namedKey? writtenMessage = some key ∧
        (Suite.hmac key.cipher.macKey.bytes (writtenMessage.toBytes.take 58)).bytes.take 8 =
          writtenMessage.toBytes.drop 58) ∧
      ((Receiver.ofShared writtenSession.sharedKey).decrypt writtenRoomMessage).map (·.1) = .ok ⟨[4, 5], 300⟩ ∧
      Suite.verify writtenSession.signingKey (writtenRoomMessage.toBytes.take 28) writtenRoomMessage.signature = true ∧
      let empty : OlmMessage := ⟨writtenKey, 0, [], OlmMessage.encodeBody writtenKey 0 [], .zero 8⟩
      OlmMessage.ofBase64? empty.toBase64 = .ok empty := by
  obtain ⟨-, -, hwritten, -, -, -, hmac, hsignature, -⟩ := messages_keep_every_byte
  have hread : OlmMessage.ofBytes? writtenMessage.toBytes = .ok writtenMessage := by decide +kernel
  have hroom : MegolmMessage.ofBytes? writtenRoomMessage.toBytes = .ok writtenRoomMessage := by decide +kernel
  have hplain : (writtenRatchet.decrypt writtenMessage).map (·.1) = .ok [1, 2, 3] := by decide +kernel
  have hsent : ((Receiver.ofShared writtenSession.sharedKey).decrypt writtenRoomMessage).map (·.1) =
      .ok ⟨[4, 5], 300⟩ := by decide +kernel
  have hlength : writtenMessage.toBytes.length = 66 := by decide +kernel
  have hroomLength : writtenRoomMessage.toBytes.length = 92 := by decide +kernel
  refine ⟨hplain, ?_, hsent, ?_, (hwritten writtenKey 0 [] (.zero 8) (by decide)).2⟩
  · cases hdecrypt : writtenRatchet.decrypt writtenMessage with
    | error e =>
      rw [hdecrypt] at hplain
      cases hplain
    | ok result =>
      obtain ⟨key, hnamed, hcovered⟩ := (hmac _ _ hread).2 _ _ _ hdecrypt
      rw [hlength] at hcovered
      exact ⟨key, hnamed, hcovered⟩
  · cases hdecrypt : (Receiver.ofShared writtenSession.sharedKey).decrypt writtenRoomMessage with
    | error e =>
      rw [hdecrypt] at hsent
      cases hsent
    | ok result =>
      obtain ⟨-, -, -, hverified⟩ := hsignature _ _ hroom
      have hcovered := (hverified _ _ _ hdecrypt).1
      rw [hroomLength] at hcovered
      exact hcovered

end RoomCrypt
