import RoomCrypt.Proofs.Laws
import RoomCrypt.Proofs.Megolm.Exchange
import RoomCrypt.Proofs.Megolm.FastForward
import RoomCrypt.Proofs.Megolm.SessionKey
import RoomCrypt.Proofs.Messages

/-!
# Room messages are read in any order

The sender takes one step of its ratchet for each message, and the receiver moves one of two ratchets to
the place of the message that has come. Whatever has come before, be it of the sender or not, both of
these ratchets are the sender's ratchet of some place, and so is the one for the message.

It is assumed that signatures verify under their own key, that the keys of seeds are points of the curve,
and that the cipher works. Lengths are below `2 ^ 64`, as they are in a machine.
-/

namespace RoomCrypt.Megolm

variable [Suite]

/-- A ratchet moves to any place that is not behind it, and is the session's ratchet there. -/
theorem OutboundSession.moveTo_ahead (session : OutboundSession) {count : ℕ} {place : UInt32}
    (hplace : session.index.toNat + count ≤ place.toNat) :
    (session.ahead count).ratchet.moveTo place =
      (session.ahead (place.toNat - session.index.toNat)).ratchet := by
  have hmove := Ratchet.moveTo_eq_iterate _ _ place.toNat (session.index_ahead count) hplace place.toNat_lt
  rw [UInt32.ofNat_toNat] at hmove
  rw [hmove]
  change Ratchet.next^[_] (Ratchet.next^[count] session.ratchet) = Ratchet.next^[_] session.ratchet
  rw [← Function.iterate_add_apply]
  congr 1
  omega

namespace Receiver

/-- A receiver that has the ratchet of a session and its signing key, and whose latest ratchet is that
of some place further on. -/
structure Follows (session : OutboundSession) (receiver : Receiver) : Prop where
  initial_eq : receiver.initial = session.ratchet
  signingKey_eq : receiver.signingKey = session.signingKey
  latest_eq : ∃ count, session.index.toNat + count < UInt32.size ∧
    receiver.latest = (session.ahead count).ratchet

variable {session : OutboundSession} {receiver : Receiver}

/-- A receiver follows its session whatever it decrypts. -/
theorem Follows.afterDecrypt (h : Follows session receiver) (message : MegolmMessage) :
    Follows session (receiver.afterDecrypt message) := by
  obtain ⟨count, hcount, hlatest⟩ := h.latest_eq
  refine ⟨h.initial_eq, h.signingKey_eq, ?_⟩
  unfold Receiver.afterDecrypt Receiver.ratchetFor
  by_cases hearly : message.index < receiver.latest.index
  · simp only [hearly, if_true]
    exact ⟨count, hcount, hlatest⟩
  · simp only [hearly, if_false]
    have hplace := UInt32.le_iff_toNat_le.mp (UInt32.not_lt.mp hearly)
    rw [hlatest] at hplace ⊢
    rw [session.toNat_index_ahead hcount] at hplace
    have hlt := message.index.toNat_lt_size
    exact ⟨message.index.toNat - session.index.toNat, by omega, session.moveTo_ahead hplace⟩

/-- A receiver follows its session after anything that comes. -/
theorem Follows.afterReading (h : Follows session receiver) (bytes : Bytes) :
    Follows session (receiver.afterReading bytes) := by
  cases hmessage : MegolmMessage.ofBytes? bytes with
  | error e =>
    simp only [Receiver.afterReading, read, hmessage]
    exact h
  | ok message =>
    simp only [Receiver.afterReading, read, hmessage, Except.map, on_decryptInPlace]
    cases hdecrypt : receiver.decrypt message with
    | error e => exact h
    | ok result =>
      obtain ⟨text, after⟩ := result
      obtain rfl := eq_afterDecrypt hdecrypt
      exact h.afterDecrypt message

/-- And so it does after any number of things. -/
theorem Follows.readAll (h : Follows session receiver) (deliveries : List Bytes) :
    Follows session (receiver.readAll deliveries) := by
  induction deliveries generalizing receiver with
  | nil => exact h
  | cons bytes deliveries ih => exact ih (h.afterReading bytes)

end Receiver

/-- A message decrypts with the ratchet that it was made with. -/
theorem Receiver.decryptAt_message (hinverts : Suite.Inverts) (session : OutboundSession) (plain : Bytes) :
    decryptAt session.ratchet (session.message plain) = .ok plain := by
  have hplain : session.ratchet.cipher.decrypt? (session.ratchet.cipher.encrypt plain) = some plain :=
    hinverts session.ratchet.cipher.key session.ratchet.cipher.iv plain
  simp [decryptAt, OutboundSession.message, hplain]

/-- The receiver's ratchet for a message that its session makes from its place on is the one that the
message was made with, be it moved there from the first or from the latest ratchet. -/
theorem Receiver.Follows.ratchetFor_eq {session : OutboundSession} {receiver : Receiver}
    (h : Follows session receiver) {message : MegolmMessage} {count : ℕ}
    (hplace : message.index.toNat = session.index.toNat + count) :
    receiver.ratchetFor message = (session.ahead count).ratchet := by
  have hmove (earlier : ℕ) (hle : earlier ≤ count) {ratchet : Ratchet}
      (hratchet : ratchet = (session.ahead earlier).ratchet) :
      ratchet.moveTo message.index = (session.ahead count).ratchet := by
    rw [hratchet, session.moveTo_ahead (by omega), hplace, Nat.add_sub_cancel_left]
  obtain ⟨latest, hlatest, hlatest_eq⟩ := h.latest_eq
  unfold ratchetFor
  by_cases hearly : message.index < receiver.latest.index
  · simp only [hearly, if_true]
    exact hmove 0 (Nat.zero_le count) h.initial_eq
  · simp only [hearly, if_false]
    have hle : latest ≤ count := by
      rw [hlatest_eq, UInt32.lt_iff_toNat_lt, hplace, session.toNat_index_ahead hlatest] at hearly
      omega
    exact hmove latest hle hlatest_eq

/-- A receiver accepts the signatures of its session, at any place. -/
theorem Receiver.Follows.verifies {session : OutboundSession} {receiver : Receiver}
    (h : Follows session receiver) (hverifies : Suite.Verifies)
    (hkey : session.signingKey = Suite.signingKey session.seed) {signer : OutboundSession}
    (hseed : signer.seed = session.seed) (plain : Bytes) :
    Suite.verify receiver.signingKey (signer.message plain).signedBytes (signer.message plain).signature =
      true := by
  rw [h.signingKey_eq, hkey, ← hseed]
  exact hverifies signer.seed _

/-- A receiver decrypts the messages that its session makes from its place on. -/
theorem Receiver.Follows.decrypts {session : OutboundSession} {receiver : Receiver}
    (h : Follows session receiver) (hverifies : Suite.Verifies) (hinverts : Suite.Inverts)
    (hkey : session.signingKey = Suite.signingKey session.seed) {count : ℕ}
    (hcount : session.index.toNat + count < UInt32.size) (plain : Bytes) :
    receiver.decrypt ((session.ahead count).message plain) =
      .ok (⟨plain, ((session.ahead count).message plain).index⟩,
        receiver.afterDecrypt ((session.ahead count).message plain)) := by
  have hplace : ((session.ahead count).message plain).index.toNat = session.index.toNat + count :=
    session.toNat_index_ahead hcount
  have hseed : (session.ahead count).seed = session.seed := rfl
  have hverify := h.verifies hverifies hkey hseed plain
  have hknown : ¬ ((session.ahead count).message plain).index < receiver.firstKnownIndex := by
    rw [UInt32.lt_iff_toNat_lt, hplace, firstKnownIndex, h.initial_eq]
    exact Nat.not_lt.mpr (Nat.le_add_right _ _)
  rw [decrypt_eq, if_pos hverify, if_neg hknown, h.ratchetFor_eq hplace, decryptAt_message hinverts]
  rfl

/-- A receiver refuses the messages that its session has made before its place. -/
theorem Receiver.Follows.refuses {session : OutboundSession} {receiver : Receiver}
    (h : Follows session receiver) (hverifies : Suite.Verifies)
    (hkey : session.signingKey = Suite.signingKey session.seed) {past : OutboundSession}
    (hseed : past.seed = session.seed) (plain : Bytes) (hindex : (past.message plain).index < session.index) :
    receiver.decrypt (past.message plain) =
      .error (.unknownIndex session.index (past.message plain).index) := by
  have hfirst : receiver.firstKnownIndex = session.index := congrArg Ratchet.index h.initial_eq
  rw [decrypt_eq, if_pos (h.verifies hverifies hkey hseed plain), hfirst, if_pos hindex]

/-- A receiver that has got the key of a session follows it. -/
theorem Handover.follows (handover : Handover) (hverifies : Suite.Verifies) (hpoints : Suite.MakesPoints)
    {session : OutboundSession} (hkey : session.signingKey = Suite.signingKey session.seed) :
    ∃ receiver, handover.receiver? session = .ok receiver ∧ receiver.Follows session := by
  have hpoint : Suite.isPoint session.signingKey = true := by
    rw [hkey]
    exact hpoints session.seed
  have hsignature : Suite.verify session.sharedKey.key.signingKey
      (SharedKey.signedBytes session.sharedKey.key) session.sharedKey.signature = true := by
    change Suite.verify session.signingKey _ _ = true
    rw [hkey]
    exact hverifies session.seed _
  have hplace : session.index.toNat + 0 < UInt32.size := session.index.toNat_lt
  have hratchet : Ratchet.ofBytes session.exportedKey.ratchet session.exportedKey.index = session.ratchet :=
    session.ratchet.ofBytes_bytes
  have hfollows (verified : Bool) :
      Receiver.Follows session { Receiver.ofExported session.exportedKey with verified } :=
    ⟨hratchet, rfl, 0, hplace, hratchet⟩
  cases handover with
  | signedBytes =>
    refine ⟨_, ?_, hfollows true⟩
    rw [receiver?, SharedKey.ofBytes?_toBytes hpoint hsignature]
    rfl
  | signedText =>
    refine ⟨_, ?_, hfollows true⟩
    rw [receiver?, SharedKey.ofBase64?_toBase64 hpoint hsignature]
    rfl
  | exportedBytes =>
    refine ⟨_, ?_, hfollows false⟩
    rw [receiver?, ExportedKey.ofBytes?_toBytes hpoint]
    rfl
  | exportedText =>
    refine ⟨_, ?_, hfollows false⟩
    rw [receiver?, ExportedKey.ofBase64?_toBase64 hpoint]
    rfl

/-- The bytes of a message of a session are read as the message. -/
theorem Receiver.read_message (receiver : Receiver) (session : OutboundSession) {plain : Bytes}
    (hlength : (session.message plain).ciphertext.length < 2 ^ 64) :
    receiver.read (session.message plain).toBytes =
      .ok (InPlace.settle receiver (receiver.decrypt (session.message plain))) := by
  rw [read, MegolmMessage.ofBytes?_toBytes rfl hlength, ← on_decryptInPlace]
  rfl

/-- A receiver that has got the key of a session at some place, signed or not, as bytes or as text, reads
each message that the session makes from there on with its text and its place, whatever has come before
and in whatever order; and it refuses those from before the place and stays as it is. -/
theorem read_in_any_order (hverifies : Suite.Verifies) (hpoints : Suite.MakesPoints)
    (hinverts : Suite.Inverts) (ratchet : Ratchet) (seed : Ed25519Seed) (before after : List Bytes)
    (handover : Handover) :
    let start := OutboundSession.ofParts ratchet seed
    let early := (start.encryptAll before).1
    let session := (start.encryptAll before).2
    let late := (session.encryptAll after).1
    session.index.toNat + after.length ≤ UInt32.size →
    (∀ sent ∈ early ++ late, sent.message.ciphertext.length < 2 ^ 64) →
    ∃ receiver, handover.receiver? session = .ok receiver ∧ ∀ deliveries,
      let now := receiver.readAll deliveries
      (∀ sent ∈ late, ∃ later,
        now.read sent.message.toBytes = .ok (.ok ⟨sent.plain, sent.message.index⟩, later)) ∧
      ∀ sent ∈ early, sent.message.index < session.index →
        now.read sent.message.toBytes =
          .ok (.error (.unknownIndex session.index sent.message.index), now) := by
  intro start early session late hroom hlength
  have hsession : session = start.ahead before.length := start.encryptAll_session before
  have hkey : session.signingKey = Suite.signingKey session.seed := by
    rw [hsession]
    rfl
  obtain ⟨receiver, hreceiver, hfollows⟩ := handover.follows hverifies hpoints hkey
  refine ⟨receiver, hreceiver, fun deliveries => ?_⟩
  intro now
  have hnow := hfollows.readAll deliveries
  constructor
  · intro sent hsent
    obtain ⟨message, plain⟩ := sent
    obtain ⟨count, hcount, hmessage⟩ := OutboundSession.mem_encryptAll hsent
    obtain rfl : message = (session.ahead count).message plain := hmessage
    have hplace : session.index.toNat + count < UInt32.size := by omega
    refine ⟨now.afterDecrypt ((session.ahead count).message plain), ?_⟩
    rw [Receiver.read_message _ _ (hlength _ (List.mem_append_right _ hsent)),
      hnow.decrypts hverifies hinverts hkey hplace plain]
    rfl
  · intro sent hsent hindex
    obtain ⟨message, plain⟩ := sent
    obtain ⟨count, -, hmessage⟩ := OutboundSession.mem_encryptAll hsent
    obtain rfl : message = (start.ahead count).message plain := hmessage
    have hseed : (start.ahead count).seed = session.seed := by
      rw [hsession]
      rfl
    rw [Receiver.read_message _ _ (hlength _ (List.mem_append_left _ hsent)),
      hnow.refuses hverifies hkey hseed plain hindex]
    rfl

end RoomCrypt.Megolm

namespace RoomCrypt.Megolm

open scoped Suite.Evaluation

/-- A small session close to the end of a round of its last part. -/
def roundStart : OutboundSession :=
  .ofParts ⟨.ofNatLE 32 1, .ofNatLE 32 2, .ofNatLE 32 3, .ofNatLE 32 4, 253⟩ ⟨.ofNatLE 32 5⟩

/-- What it has sent before its key is shared, and the session at that time. -/
def roundEarly : List Sent × OutboundSession :=
  roundStart.encryptAll [[1], [2]]

/-- What it sends from there on, into the next round. -/
def roundLate : List Sent :=
  (roundEarly.2.encryptAll [[3], [4], [5]]).1

/-- The messages of the next round are read after they came in the wrong order, and the others are
refused. -/
theorem read_in_any_order_reversed :
    roundLate.map (·.message.index) = [255, 256, 257] ∧
      roundEarly.2.index.toNat + 3 ≤ UInt32.size ∧
      (∀ sent ∈ roundEarly.1 ++ roundLate, sent.message.ciphertext.length < 2 ^ 64) ∧
      ∃ receiver, Handover.signedText.receiver? roundEarly.2 = .ok receiver ∧
        let now := receiver.readAll (roundLate.map (·.message.toBytes)).reverse
        (∀ sent ∈ roundLate, ∃ later,
          now.read sent.message.toBytes = .ok (.ok ⟨sent.plain, sent.message.index⟩, later)) ∧
        ∀ sent ∈ roundEarly.1, now.read sent.message.toBytes =
          .ok (.error (.unknownIndex 255 sent.message.index), now) := by
  have hroom : roundEarly.2.index.toNat + 3 ≤ UInt32.size := by decide +kernel
  have hlength : ∀ sent ∈ roundEarly.1 ++ roundLate, sent.message.ciphertext.length < 2 ^ 64 := by
    decide +kernel
  have hbefore : roundEarly.2.index = 255 ∧ ∀ sent ∈ roundEarly.1, sent.message.index < 255 := by
    decide +kernel
  obtain ⟨receiver, hreceiver, hread⟩ := read_in_any_order Suite.verifies_simple Suite.makesPoints_simple
    Suite.inverts_simple roundStart.ratchet roundStart.seed [[1], [2]] [[3], [4], [5]] .signedText hroom hlength
  obtain ⟨hlate, hearly⟩ := hread (roundLate.map (·.message.toBytes)).reverse
  refine ⟨by decide +kernel, hroom, hlength, receiver, hreceiver, hlate, fun sent hsent => ?_⟩
  have hindex : sent.message.index < roundEarly.2.index := hbefore.1 ▸ hbefore.2 sent hsent
  have hrefused := hearly sent hsent hindex
  change _ = Except.ok (Except.error (DecryptError.unknownIndex roundEarly.2.index _), _) at hrefused
  rwa [hbefore.1] at hrefused

end RoomCrypt.Megolm
