import RoomCrypt.Megolm.Inbound
import RoomCrypt.Proofs.Megolm.Exchange
import RoomCrypt.Proofs.Megolm.Pickles
import RoomCrypt.Proofs.Megolm.SessionKey

/-!
# Which bytes are session keys

A session key is a version, a place, a ratchet, a signing key and, if it is shared by its creator, a signature of all
of that by this very key. So bytes are accepted exactly if there are as many of them as that takes, the version is the
right one, the signing key is a point of the curve and the signature verifies under it, and the session that they open
can be read off them. The two forms have different versions, so that no bytes have both.
-/

namespace RoomCrypt

/-- The four bytes of a number write it in base 256, highest digit first. -/
theorem toNatBE_ofUInt32 (n : UInt32) : Bytes.toNatBE (Bytes.ofUInt32 n) = n.toNat := by
  obtain ⟨h24, h16, h8, h0⟩ := toNat_shiftRight_byte n
  simp only [Bytes.toNatBE, Bytes.ofUInt32, List.foldl_cons, List.foldl_nil, h24, h16, h8, h0]
  omega

namespace Megolm

namespace ExportedKey

/-- Bytes that are long enough have the fields of a key behind the first one. -/
theorem exists_fields {bytes : Bytes} (hlength : 165 ≤ bytes.length) :
    ∃ key : ExportedKey, bytes = bytes.headD 0 :: (key.fields ++ bytes.drop 165) := by
  have hform := form_eq (⟨bytes, rfl⟩ : Octets bytes.length) hlength
  rw [← fields_slices] at hform
  exact ⟨_, hform⟩

/-- The fields of a key have their places in its forms. -/
theorem places {bytes tail : Bytes} {first : UInt8} {key : ExportedKey} (h : bytes = first :: (key.fields ++ tail)) :
    bytes.take 165 = first :: key.fields ∧ Bytes.toNatBE ((bytes.drop 1).take 4) = key.index.toNat ∧
      (bytes.drop 5).take 128 = key.ratchet.bytes ∧ (bytes.drop 133).take 32 = key.signingKey.octets.bytes ∧
      bytes.drop 165 = tail := by
  subst h
  have hfields : key.fields ++ tail =
      Bytes.ofUInt32 key.index ++ (key.ratchet.bytes ++ (key.signingKey.octets.bytes ++ tail)) := by
    simp only [fields, List.append_assoc]
  have hfront : (Bytes.ofUInt32 key.index ++ key.ratchet.bytes).length = 132 := by simp
  refine ⟨congrArg (first :: ·) (List.take_left' key.length_fields), ?_, ?_, ?_, List.drop_left' key.length_fields⟩
  · change Bytes.toNatBE ((key.fields ++ tail).take 4) = _
    rw [hfields, List.take_left' (Bytes.length_ofUInt32 _), toNatBE_ofUInt32]
  · change ((key.fields ++ tail).drop 4).take 128 = _
    rw [hfields, List.drop_left' (Bytes.length_ofUInt32 _), List.take_left' key.ratchet.length_eq]
  · change ((key.fields ++ tail).drop 132).take 32 = _
    rw [hfields, ← List.append_assoc, List.drop_left' hfront, List.take_left' key.signingKey.octets.length_eq]

end ExportedKey

variable [Suite]

/-- A session is opened by bytes that have its ratchet, its first place, which is also the latest one, and its signing
key at their places. -/
structure InboundSession.IsOpenedBy (session : InboundSession Receiver) (bytes : Bytes) : Prop where
  ratchet_eq : session.state.initial.bytes.bytes = (bytes.drop 5).take 128
  latest_eq : session.state.latest = session.state.initial
  firstKnownIndex_eq : session.firstKnownIndex.toNat = Bytes.toNatBE ((bytes.drop 1).take 4)
  index_eq : session.state.initial.index = session.firstKnownIndex
  sessionId_eq : session.sessionId = Base64.encode ((bytes.drop 133).take 32)

omit [Suite] in
/-- The session of a key is opened by each of its forms, signed or not. -/
theorem InboundSession.isOpenedBy {bytes tail : Bytes} {first : UInt8} {key : ExportedKey}
    (h : bytes = first :: (key.fields ++ tail)) {receiver : Receiver}
    (hinitial : receiver.initial = Ratchet.ofBytes key.ratchet key.index) (hlatest : receiver.latest = receiver.initial)
    (hkey : receiver.signingKey = key.signingKey) (senderKey : Curve25519Key) (claimedKeys : Dict String)
    (room : RoomId) (imported : Bool) (now : Clock) :
    (InboundSession.ofReceiver receiver senderKey claimedKeys room imported now).IsOpenedBy bytes := by
  obtain ⟨-, hindex, hratchet, hpoint, -⟩ := ExportedKey.places h
  have hfirst : receiver.firstKnownIndex = key.index := congrArg Ratchet.index hinitial
  refine ⟨?_, hlatest, ?_, rfl, ?_⟩
  · rw [hratchet]
    change receiver.initial.bytes.bytes = _
    rw [hinitial, Ratchet.bytes_ofBytes]
  · rw [hindex, ← hfirst]
    rfl
  · rw [hpoint, ← hkey]
    rfl

omit [Suite] in
/-- A signed key is encoded as its version, its fields and its signature. -/
theorem SharedKey.toBytes_eq (shared : SharedKey) :
    shared.toBytes = version :: (shared.key.fields ++ shared.signature.octets.bytes) := rfl

omit [Suite] in
/-- An unsigned key is encoded as its version and its fields. -/
theorem ExportedKey.toBytes_eq (key : ExportedKey) : key.toBytes = version :: (key.fields ++ []) := by
  rw [List.append_nil, toBytes]

/-- Bytes are a signed key exactly if they are well formed and signed by themselves. -/
theorem SharedKey.exists_ofBytes?_iff {bytes : Bytes} :
    (∃ shared, ofBytes? bytes = .ok shared) ↔ bytes.length = 229 ∧ bytes.head? = some 2 ∧
      ∃ (point : Octets 32) (signature : Octets 64), (bytes.drop 133).take 32 = point.bytes ∧
        bytes.drop 165 = signature.bytes ∧ Suite.isPoint ⟨point⟩ = true ∧
          Suite.verify ⟨point⟩ (bytes.take 165) ⟨signature⟩ = true := by
  constructor
  · rintro ⟨shared, h⟩
    obtain ⟨rfl, hpoint, hverify⟩ := ofBytes?_eq_ok_iff.mp h
    obtain ⟨hsigned, -, -, hkey, htail⟩ := ExportedKey.places shared.toBytes_eq
    exact ⟨by simp [toBytes, signedBytes], rfl, shared.key.signingKey.octets, shared.signature.octets, hkey, htail,
      hpoint, hsigned ▸ hverify⟩
  · rintro ⟨hlength, hversion, point, signature, hkey, htail, hpoint, hverify⟩
    obtain ⟨key, hbytes⟩ := ExportedKey.exists_fields (show 165 ≤ bytes.length by omega)
    obtain ⟨hsigned, -, -, hplace, -⟩ := ExportedKey.places hbytes
    have hfirst : bytes.headD 0 = version := by
      rw [List.headD_eq_head?_getD, hversion]
      rfl
    obtain rfl : key.signingKey.octets = point := Octets.ext (hplace.symm.trans hkey)
    rw [hfirst, htail] at hbytes
    rw [hsigned, hfirst] at hverify
    exact ⟨⟨key, ⟨signature⟩⟩, ofBytes?_eq_ok_iff.mpr ⟨(toBytes_eq _).trans hbytes.symm, hpoint, hverify⟩⟩

/-- Bytes are an unsigned key exactly if they are well formed. -/
theorem ExportedKey.exists_ofBytes?_iff {bytes : Bytes} :
    (∃ key, ofBytes? bytes = .ok key) ↔ bytes.length = 165 ∧ bytes.head? = some 1 ∧
      ∃ point : Octets 32, bytes.drop 133 = point.bytes ∧ Suite.isPoint ⟨point⟩ = true := by
  constructor
  · rintro ⟨key, h⟩
    obtain ⟨rfl, hpoint⟩ := ofBytes?_eq_ok_iff.mp h
    have hlength : key.toBytes.length = 165 := by simp [toBytes]
    obtain ⟨-, -, -, hkey, -⟩ := places key.toBytes_eq
    have hlast : (key.toBytes.drop 133).take 32 = key.toBytes.drop 133 :=
      List.take_of_length_le (by rw [List.length_drop, hlength])
    exact ⟨hlength, rfl, key.signingKey.octets, hlast.symm.trans hkey, hpoint⟩
  · rintro ⟨hlength, hversion, point, hkey, hpoint⟩
    obtain ⟨key, hbytes⟩ := exists_fields (Nat.le_of_eq hlength.symm)
    obtain ⟨-, -, -, hplace, -⟩ := places hbytes
    have hfirst : bytes.headD 0 = version := by
      rw [List.headD_eq_head?_getD, hversion]
      rfl
    have hrest : bytes.drop 165 = [] := List.drop_eq_nil_of_le (Nat.le_of_eq hlength)
    have hlast : (bytes.drop 133).take 32 = bytes.drop 133 :=
      List.take_of_length_le (by rw [List.length_drop, hlength])
    obtain rfl : key.signingKey.octets = point := Octets.ext (hplace.symm.trans (hlast.trans hkey))
    rw [hfirst, hrest] at hbytes
    exact ⟨key, ofBytes?_eq_ok_iff.mpr ⟨key.toBytes_eq.trans hbytes.symm, hpoint⟩⟩

/-- What an outbound session shares and exports opens it at its place, and is accepted: its signing key is a point, and
signatures verify under their own key. -/
theorem OutboundSession.keys_accepted (hverifies : Suite.Verifies) (hpoints : Suite.MakesPoints) (ratchet : Ratchet)
    (seed : Ed25519Seed) :
    let session := OutboundSession.ofParts ratchet seed
    SharedKey.ofBytes? session.sharedKey.toBytes = .ok session.sharedKey ∧
      ExportedKey.ofBytes? session.exportedKey.toBytes = .ok session.exportedKey :=
  ⟨SharedKey.ofBytes?_toBytes (hpoints seed) (hverifies seed _), ExportedKey.ofBytes?_toBytes (hpoints seed)⟩

/-- Bytes are a shared session key exactly if there are 229 of them, the first is 2, a point of the curve stands at
their places 133 to 164 and the last 64 are a signature of all before them that verifies under this point. They are an
exported session key exactly if there are 165 of them, the first is 1 and the last 32 are a point. Both are encoded as
they came, and the session of the key is read off the bytes: the ratchet, the place, which is the first and the latest
one, and the identifier. A session that sends, of whatever ratchet and seed and after whatever texts, shares and
exports bytes that are accepted and have its own identifier and its place, if signatures verify under their own key and
the keys of seeds are points. No bytes are both. -/
theorem session_keys_accepted_iff_well_formed :
    (∀ bytes, (∃ shared, SharedKey.ofBytes? bytes = .ok shared) ↔ bytes.length = 229 ∧ bytes.head? = some 2 ∧
      ∃ (point : Octets 32) (signature : Octets 64), (bytes.drop 133).take 32 = point.bytes ∧
        bytes.drop 165 = signature.bytes ∧ Suite.isPoint ⟨point⟩ = true ∧
          Suite.verify ⟨point⟩ (bytes.take 165) ⟨signature⟩ = true) ∧
    (∀ bytes, (∃ key, ExportedKey.ofBytes? bytes = .ok key) ↔ bytes.length = 165 ∧ bytes.head? = some 1 ∧
      ∃ point : Octets 32, bytes.drop 133 = point.bytes ∧ Suite.isPoint ⟨point⟩ = true) ∧
    (∀ bytes shared, SharedKey.ofBytes? bytes = .ok shared → shared.toBytes = bytes ∧
      ∀ senderKey signingKey room now,
        (InboundSession.ofShared senderKey signingKey room shared now).IsOpenedBy bytes) ∧
    (∀ bytes key, ExportedKey.ofBytes? bytes = .ok key → key.toBytes = bytes ∧
      ∀ senderKey claimedKeys room now,
        (InboundSession.ofExported senderKey claimedKeys room key now).IsOpenedBy bytes) ∧
    (Suite.Verifies → Suite.MakesPoints → ∀ ratchet seed plains,
      let session := (OutboundSession.encryptAll plains (.ofParts ratchet seed)).2
      SharedKey.ofBytes? session.sharedKey.toBytes = .ok session.sharedKey ∧
        ExportedKey.ofBytes? session.exportedKey.toBytes = .ok session.exportedKey ∧
        session.sharedKey.key = session.exportedKey ∧ session.exportedKey.sessionId = session.sessionId ∧
        session.exportedKey.index = session.index ∧
        session.index = UInt32.ofNat (ratchet.index.toNat + plains.length)) ∧
    ∀ bytes, ¬ ((∃ shared, SharedKey.ofBytes? bytes = .ok shared) ∧ ∃ key, ExportedKey.ofBytes? bytes = .ok key) := by
  refine ⟨fun _ => SharedKey.exists_ofBytes?_iff, fun _ => ExportedKey.exists_ofBytes?_iff,
    fun bytes shared h => ?_, fun bytes key h => ?_, fun hverifies hpoints ratchet seed plains => ?_, ?_⟩
  · have hbytes := (SharedKey.ofBytes?_eq_ok_iff.mp h).1
    exact ⟨hbytes, fun senderKey _ room now =>
      InboundSession.isOpenedBy (hbytes.symm.trans shared.toBytes_eq) rfl rfl rfl senderKey _ room false now⟩
  · have hbytes := (ExportedKey.ofBytes?_eq_ok_iff.mp h).1
    exact ⟨hbytes, fun senderKey claimedKeys room now =>
      InboundSession.isOpenedBy (hbytes.symm.trans key.toBytes_eq) rfl rfl rfl senderKey claimedKeys room true now⟩
  · rw [OutboundSession.encryptAll_session]
    obtain ⟨hshared, hexported⟩ :=
      OutboundSession.keys_accepted hverifies hpoints (Ratchet.next^[plains.length] ratchet) seed
    exact ⟨hshared, hexported, rfl, rfl, rfl, (OutboundSession.ofParts ratchet seed).index_ahead plains.length⟩
  · rintro bytes ⟨hshared, hexported⟩
    have hlong := (SharedKey.exists_ofBytes?_iff.mp hshared).1
    have hshort := (ExportedKey.exists_ofBytes?_iff.mp hexported).1
    omega

end Megolm

end RoomCrypt

namespace RoomCrypt.Megolm

open scoped Suite.Evaluation

/-- A small session close to the last place of all. -/
def formSession : OutboundSession :=
  .ofParts ⟨.ofNatLE 32 1, .ofNatLE 32 2, .ofNatLE 32 3, .ofNatLE 32 4, 0xfffffffe⟩ ⟨.ofNatLE 32 5⟩

/-- What it shares after one text. -/
def formShared : SharedKey :=
  (OutboundSession.encryptAll [[1]] formSession).2.sharedKey

/-- A room. -/
def formRoom : RoomId := ⟨"!form", by decide⟩

/-- What it shares is accepted and opens a session at the last place. With the other version it is no unsigned key. -/
theorem session_keys_accepted_iff_well_formed_last :
    SharedKey.ofBytes? formShared.toBytes = .ok formShared ∧ formShared.toBytes.length = 229 ∧
      (∃ point signature, Suite.verify ⟨point⟩ (formShared.toBytes.take 165) ⟨signature⟩ = true) ∧
      (InboundSession.ofShared default default formRoom formShared ⟨0⟩).firstKnownIndex.toNat = 0xffffffff ∧
      ¬ ∃ key, ExportedKey.ofBytes? (1 :: formShared.toBytes.drop 1) = .ok key := by
  obtain ⟨hshared, hexported, hopened, -, hsession, -⟩ := session_keys_accepted_iff_well_formed
  have haccepted : SharedKey.ofBytes? formShared.toBytes = .ok formShared :=
    (hsession Suite.verifies_simple Suite.makesPoints_simple formSession.ratchet formSession.seed [[1]]).1
  obtain ⟨hlength, -, point, signature, -, -, -, hverify⟩ := (hshared _).mp ⟨_, haccepted⟩
  have hindex : Bytes.toNatBE ((formShared.toBytes.drop 1).take 4) = 0xffffffff := by decide +kernel
  have hopens := (hopened _ _ haccepted).2 default default formRoom ⟨0⟩
  refine ⟨haccepted, hlength, ⟨point, signature, hverify⟩, hopens.firstKnownIndex_eq.trans hindex, fun hother => ?_⟩
  have hshort := ((hexported _).mp hother).1
  rw [List.length_cons, List.length_drop, hlength] at hshort
  cases hshort

end RoomCrypt.Megolm
