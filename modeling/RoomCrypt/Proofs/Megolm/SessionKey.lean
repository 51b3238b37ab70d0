import RoomCrypt.Megolm.Outbound
import RoomCrypt.Proofs.Bytes
import RoomCrypt.Proofs.Laws
import RoomCrypt.Proofs.Text.Base64

/-!
# Session keys read back

The forms of a session key, signed or not, as bytes or as text, are decoded as the key that was encoded,
if its signing key is a point and the signature verifies, and nothing else is decoded as a key.
-/

namespace RoomCrypt.Megolm

variable [Suite]

namespace ExportedKey

/-- The place, the ratchet and the signing key are read from what was written of them. -/
theorem ofFields?_fields {key : ExportedKey} (hpoint : Suite.isPoint key.signingKey = true) {octets : Octets 164}
    (hfields : octets.bytes = key.fields) : ofFields? octets = .ok key := by
  obtain ⟨⟨signingKey⟩, ratchet, index⟩ := key
  change octets.bytes = Bytes.ofUInt32 index ++ ratchet.bytes ++ signingKey.bytes at hfields
  have hfront : (Bytes.ofUInt32 index ++ ratchet.bytes).length = 132 := by simp
  have hindex : octets.slice 0 4 (by decide) = ⟨Bytes.ofUInt32 index, rfl⟩ := by
    apply Octets.ext
    change octets.bytes.take 4 = _
    rw [hfields, List.append_assoc]
    exact List.take_left' rfl
  have hratchet : octets.slice 4 128 (by decide) = ratchet := by
    apply Octets.ext
    change (octets.bytes.drop 4).take 128 = _
    rw [hfields, List.append_assoc, List.drop_left' (Bytes.length_ofUInt32 index)]
    exact List.take_left' ratchet.length_eq
  have hkey : octets.slice 132 32 (by decide) = signingKey := by
    apply Octets.ext
    change (octets.bytes.drop 132).take 32 = _
    rw [hfields, List.drop_left' hfront]
    exact List.take_of_length_le (Nat.le_of_eq signingKey.length_eq)
  have hread : Ed25519Key.ofOctets? signingKey = some ⟨signingKey⟩ := by
    simp only [Ed25519Key.ofOctets?, hpoint, if_true]
  simp only [ofFields?, hkey, hread, hratchet, hindex, toUInt32_ofUInt32]

omit [Suite] in
/-- The fields of a key have a fixed length. -/
@[simp] theorem length_fields (key : ExportedKey) : key.fields.length = 164 := by
  simp [fields]

omit [Suite] in
/-- Any bytes of that length are the fields of a key. -/
theorem fields_slices (octets : Octets 164) :
    (⟨⟨octets.slice 132 32 (by decide)⟩, octets.slice 4 128 (by decide),
      (octets.slice 0 4 (by decide)).toUInt32⟩ : ExportedKey).fields = octets.bytes := by
  have hrest : (octets.bytes.drop 132).take 32 = octets.bytes.drop 132 :=
    List.take_of_length_le (by rw [List.length_drop, octets.length_eq])
  have hmiddle : (octets.bytes.drop 4).take 128 ++ octets.bytes.drop 132 = octets.bytes.drop 4 := by
    have hdrop : (octets.bytes.drop 4).drop 128 = octets.bytes.drop 132 := List.drop_drop
    rw [← hdrop, List.take_append_drop]
  simp only [fields, ofUInt32_toUInt32]
  change octets.bytes.take 4 ++ (octets.bytes.drop 4).take 128 ++ (octets.bytes.drop 132).take 32 = _
  rw [hrest, List.append_assoc, hmiddle, List.take_append_drop]

/-- The fields of a key are read exactly from their bytes, if the signing key is a point. -/
theorem ofFields?_eq_ok_iff {octets : Octets 164} {key : ExportedKey} :
    ofFields? octets = .ok key ↔ octets.bytes = key.fields ∧ Suite.isPoint key.signingKey = true := by
  constructor
  · intro h
    unfold ofFields? Ed25519Key.ofOctets? at h
    split at h
    · next signingKey hread =>
      obtain ⟨hpoint, hkey⟩ := Option.ite_none_right_eq_some.mp hread
      obtain rfl := Option.some.inj hkey
      obtain rfl := Except.ok.inj h
      exact ⟨(fields_slices octets).symm, hpoint⟩
    · cases h
  · rintro ⟨hfields, hpoint⟩
    exact ofFields?_fields hpoint hfields

omit [Suite] in
/-- A form is its version, the fields of a key and what follows them. -/
theorem form_eq {n : ℕ} (octets : Octets n) (hn : 1 + 164 ≤ n) :
    octets.bytes = octets.bytes.headD 0 :: ((octets.slice 1 164 hn).bytes ++ octets.bytes.drop 165) := by
  obtain ⟨bytes, hlength⟩ := octets
  cases bytes with
  | nil => cases hlength; cases hn
  | cons first rest =>
    change first :: rest = first :: (rest.take 164 ++ rest.drop 164)
    rw [List.take_append_drop]

/-- A key is decoded exactly from the bytes that it is encoded as, if its signing key is a point. -/
theorem ofBytes?_eq_ok_iff {bytes : Bytes} {key : ExportedKey} :
    ofBytes? bytes = .ok key ↔ key.toBytes = bytes ∧ Suite.isPoint key.signingKey = true := by
  constructor
  · intro h
    unfold ofBytes? at h
    split at h
    · cases h
    · next octets hoctets =>
      obtain rfl := Octets.bytes_of_ofBytes? hoctets
      dsimp only at h
      split at h
      · cases h
      · next hversion =>
        obtain ⟨hfields, hpoint⟩ := ofFields?_eq_ok_iff.mp h
        have hrest : octets.bytes.drop 165 = [] := List.drop_eq_nil_of_le (Nat.le_of_eq octets.length_eq)
        refine ⟨?_, hpoint⟩
        rw [form_eq octets (by decide), hfields, hrest, not_not.mp hversion, List.append_nil, toBytes]
  · rintro ⟨rfl, hpoint⟩
    have hlength : key.toBytes.length = size := by simp [toBytes, size]
    have hfields : ((⟨key.toBytes, hlength⟩ : Octets size).slice 1 164 (by decide)).bytes = key.fields :=
      List.take_of_length_le (Nat.le_of_eq key.length_fields)
    have hversion : key.toBytes.headD 0 = version := rfl
    simp only [ofBytes?, Octets.ofBytes?, hlength, dif_pos, hversion, ne_eq, not_true_eq_false, if_false]
    exact ofFields?_fields hpoint hfields

/-- A key is decoded from its bytes. -/
theorem ofBytes?_toBytes {key : ExportedKey} (hpoint : Suite.isPoint key.signingKey = true) :
    ofBytes? key.toBytes = .ok key :=
  ofBytes?_eq_ok_iff.mpr ⟨rfl, hpoint⟩

/-- A key is decoded from its text. -/
theorem ofBase64?_toBase64 {key : ExportedKey} (hpoint : Suite.isPoint key.signingKey = true) :
    ofBase64? key.toBase64 = .ok key := by
  rw [ofBase64?, toBase64, Base64.decode?_encode]
  exact ofBytes?_toBytes hpoint

/-- The signing key of a key that is decoded from bytes is a point. -/
theorem isPoint_of_ofBytes? {bytes : Bytes} {key : ExportedKey}
    (h : ofBytes? bytes = .ok key) : Suite.isPoint key.signingKey = true :=
  (ofBytes?_eq_ok_iff.mp h).2

/-- So is that of a key that is decoded from text. -/
theorem isPoint_of_ofBase64? {text : String} {key : ExportedKey}
    (h : ofBase64? text = .ok key) : Suite.isPoint key.signingKey = true := by
  unfold ofBase64? at h
  split at h
  · exact isPoint_of_ofBytes? h
  · cases h

end ExportedKey

namespace SharedKey

/-- A signed key is decoded exactly from the bytes that it is encoded as, if its signing key is a point under which its
signature verifies. -/
theorem ofBytes?_eq_ok_iff {bytes : Bytes} {shared : SharedKey} :
    ofBytes? bytes = .ok shared ↔ shared.toBytes = bytes ∧ Suite.isPoint shared.key.signingKey = true ∧
      Suite.verify shared.key.signingKey (signedBytes shared.key) shared.signature = true := by
  have hsigned (shared : SharedKey) : (signedBytes shared.key).length = 165 := by simp [signedBytes]
  constructor
  · intro h
    unfold ofBytes? at h
    split at h
    · cases h
    · next octets hoctets =>
      obtain rfl := Octets.bytes_of_ofBytes? hoctets
      dsimp only at h
      split at h
      · cases h
      · next hversion =>
        split at h
        · cases h
        · next key hkey =>
          split at h
          · next hverify =>
            obtain ⟨hfields, hpoint⟩ := ExportedKey.ofFields?_eq_ok_iff.mp hkey
            obtain rfl := Except.ok.inj h
            have hform : octets.bytes = signedBytes key ++ octets.bytes.drop 165 := by
              have h := ExportedKey.form_eq octets (by decide)
              rw [hfields, not_not.mp hversion] at h
              exact h
            have htake : octets.bytes.take 165 = signedBytes key := by
              rw [hform]
              exact List.take_left' (hsigned ⟨key, default⟩)
            have hrest : (octets.bytes.drop 165).take 64 = octets.bytes.drop 165 :=
              List.take_of_length_le (by rw [List.length_drop, octets.length_eq]; decide)
            refine ⟨?_, hpoint, htake ▸ hverify⟩
            change signedBytes key ++ (octets.bytes.drop 165).take 64 = _
            rw [hrest, ← hform]
          · cases h
  · rintro ⟨rfl, hpoint, hsignature⟩
    have hlength : shared.toBytes.length = size := by simp [toBytes, signedBytes, size]
    have hfields : ((⟨shared.toBytes, hlength⟩ : Octets size).slice 1 164 (by decide)).bytes = shared.key.fields :=
      List.take_left' shared.key.length_fields
    have hversion : shared.toBytes.headD 0 = version := rfl
    have hread : (⟨shared.toBytes, hlength⟩ : Octets size).slice 165 64 (by decide) = shared.signature.octets := by
      apply Octets.ext
      change (shared.toBytes.drop 165).take 64 = _
      rw [toBytes, List.drop_left' (hsigned shared)]
      exact List.take_of_length_le (Nat.le_of_eq shared.signature.octets.length_eq)
    have htake : shared.toBytes.take 165 = signedBytes shared.key := List.take_left' (hsigned shared)
    simp only [ofBytes?, Octets.ofBytes?, hlength, dif_pos, hversion, ne_eq, not_true_eq_false, if_false,
      ExportedKey.ofFields?_fields hpoint hfields, hread, htake, hsignature, if_true]

/-- A signed key is decoded from its bytes, if the signature verifies. -/
theorem ofBytes?_toBytes {shared : SharedKey} (hpoint : Suite.isPoint shared.key.signingKey = true)
    (hsignature : Suite.verify shared.key.signingKey (signedBytes shared.key) shared.signature = true) :
    ofBytes? shared.toBytes = .ok shared :=
  ofBytes?_eq_ok_iff.mpr ⟨rfl, hpoint, hsignature⟩

/-- A signed key is decoded from its text, if the signature verifies. -/
theorem ofBase64?_toBase64 {shared : SharedKey} (hpoint : Suite.isPoint shared.key.signingKey = true)
    (hsignature : Suite.verify shared.key.signingKey (signedBytes shared.key) shared.signature = true) :
    ofBase64? shared.toBase64 = .ok shared := by
  rw [ofBase64?, toBase64, Base64.decode?_encode]
  exact ofBytes?_toBytes hpoint hsignature

end SharedKey

end RoomCrypt.Megolm
