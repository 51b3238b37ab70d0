import RoomCrypt.Proofs.Megolm.Provenance
import RoomCrypt.Proofs.Megolm.SessionKey
import RoomCrypt.Proofs.Pickle.RoundTrip

/-!
# Keys that are exported from a later place

A session gives its key from any place on, and from its first known place if it is asked for an earlier one. Two moves
of the ratchet forward are one, so that the session that is made of such a key answers all messages from that place on
as the session itself does and gives the same keys in its turn. What the session has decrypted before does not matter.
-/

namespace RoomCrypt

/-- The later of two places, as a number. -/
theorem toNat_max (a b : UInt32) : (max a b).toNat = max a.toNat b.toNat := by
  change (if a ≤ b then b else a).toNat = _
  by_cases h : a ≤ b
  · rw [if_pos h, Nat.max_eq_right (UInt32.le_iff_toNat_le.mp h)]
  · rw [if_neg h, Nat.max_eq_left (Nat.le_of_not_le fun hle => h (UInt32.le_iff_toNat_le.mpr hle))]

/-- The later of two places does not lie before the second one. -/
theorem le_max_place (a b : UInt32) : b ≤ max a b := by
  rw [UInt32.le_iff_toNat_le, toNat_max]
  exact Nat.le_max_right a.toNat b.toNat

/-- It does not matter which of two places comes first. -/
theorem max_place_comm (a b : UInt32) : max a b = max b a := by
  rw [← UInt32.toNat_inj, toNat_max, toNat_max]
  exact Nat.max_comm a.toNat b.toNat

/-- A place that does not lie before another one is the later of the two. -/
theorem max_place_of_le {a b : UInt32} (h : b ≤ a) : max a b = a := by
  rw [← UInt32.toNat_inj, toNat_max]
  exact Nat.max_eq_left (UInt32.le_iff_toNat_le.mp h)

namespace Megolm

variable [Suite]

namespace Receiver

/-- From a later ratchet, the messages that do not lie before it are answered as from the initial one. -/
theorem answer_moveTo {initial : Ratchet} (signingKey : Ed25519Key) {place : UInt32} {message : MegolmMessage}
    (hplace : initial.index ≤ place) (hmessage : place ≤ message.index) :
    answer (initial.moveTo place) signingKey message = answer initial signingKey message := by
  have hlate : ¬ message.index < initial.index := UInt32.not_lt.mpr (UInt32.le_trans hplace hmessage)
  unfold answer
  rw [Ratchet.index_moveTo initial hplace, if_neg (UInt32.not_lt.mpr hmessage), if_neg hlate,
    Ratchet.moveTo_moveTo initial hplace hmessage]

/-- A key from a place on is there if the place is not before the first one. -/
theorem exportAt?_of_le {receiver : Receiver} {place : UInt32} (h : receiver.firstKnownIndex ≤ place) :
    receiver.exportAt? place = some (.ofRatchet (receiver.initial.moveTo place) receiver.signingKey) :=
  if_neg (UInt32.not_lt.mpr h)

omit [Suite] in
/-- The receiver of the key of a ratchet has this ratchet. -/
theorem initial_ofExported (ratchet : Ratchet) (signingKey : Ed25519Key) :
    (ofExported (.ofRatchet ratchet signingKey)).initial = ratchet :=
  Ratchet.ofBytes_bytes ratchet

end Receiver

namespace InboundSession

/-- A session that has just been made of a session key whose signing key is a point. -/
inductive Made : InboundSession Receiver → Prop where
  | shared (senderKey : Curve25519Key) (signingKey : Ed25519Key) (room : RoomId) {key : SharedKey}
      (hpoint : Suite.isPoint key.key.signingKey = true) (now : Clock) :
      Made (ofShared senderKey signingKey room key now)
  | exported (senderKey : Curve25519Key) (claimedKeys : Dict String) (room : RoomId) {key : ExportedKey}
      (hpoint : Suite.isPoint key.signingKey = true) (now : Clock) :
      Made (ofExported senderKey claimedKeys room key now)

/-- What becomes of a session: it decrypts messages, it is restored from its own record, and it gets what is known of
where it comes from. A message that it refuses leaves it as it is. -/
inductive GoesOn (origin : InboundSession Receiver) : InboundSession Receiver → Prop where
  | start : GoesOn origin origin
  | decrypted {session after : InboundSession Receiver} {message : MegolmMessage} {text : DecryptedMessage}
      (h : GoesOn origin session) (hdecrypt : session.decrypt message = .ok (text, after)) : GoesOn origin after
  | restored {session after : InboundSession Receiver} (h : GoesOn origin session)
      (hread : ofPickle? session.pickle = .ok after) : GoesOn origin after
  | labelled {session : InboundSession Receiver} (forwardingChain : List String) (maxAge : Option Duration)
      (maxMessages : Option UInt64) (backupVersion : Option String) (h : GoesOn origin session) :
      GoesOn origin { session with forwardingChain, maxAge, maxMessages, backupVersion }

variable {origin session : InboundSession Receiver}

/-- A session that has just been made has come about. -/
theorem Made.arises (h : origin.Made) : origin.Arises := by
  cases h with
  | shared senderKey signingKey room hpoint now => exact .shared senderKey signingKey room hpoint now
  | exported senderKey claimedKeys room hpoint now => exact .exported senderKey claimedKeys room hpoint now

/-- Its latest ratchet is the initial one. -/
theorem Made.genuine (h : origin.Made) : origin.Genuine := by
  cases h with
  | @shared senderKey signingKey room key hpoint now => exact ⟨rfl, Receiver.cached_origin (.shared key)⟩
  | @exported senderKey claimedKeys room key hpoint now => exact ⟨rfl, Receiver.cached_origin (.exported key)⟩

/-- So has whatever becomes of it. -/
theorem GoesOn.arises (h : origin.GoesOn session) (horigin : origin.Arises) : session.Arises := by
  induction h with
  | start => exact horigin
  | decrypted h hdecrypt ih => exact ih.decrypted hdecrypt
  | restored h hread ih => exact .restored hread
  | labelled forwardingChain maxAge maxMessages backupVersion h ih => exact ih.labelled _ _ _ _

/-- The latest ratchet stays a cache, and the initial ratchet and the signing key stay. -/
theorem GoesOn.genuine (h : origin.GoesOn session) (horigin : origin.Genuine) :
    session.Genuine ∧ origin.state.Precedes session.state := by
  induction h with
  | start => exact ⟨horigin, .refl _⟩
  | @decrypted session after message text h hdecrypt ih =>
    obtain ⟨hgenuine, hpast⟩ := ih
    refine ⟨?_, ?_⟩
    · rcases hgenuine.decrypt_cases message with ⟨e, -, hrefused⟩ | ⟨_, _, -, hdecrypted, hafter, -, -⟩
      · rw [hrefused] at hdecrypt
        cases hdecrypt
      · rw [hdecrypted] at hdecrypt
        obtain ⟨-, rfl⟩ := Prod.mk.inj (Except.ok.inj hdecrypt)
        exact hafter
    · obtain rfl := eq_of_decrypt hdecrypt
      exact hpast.trans (session.state.precedes_afterDecrypt message)
  | restored h hread ih =>
    obtain ⟨hloaded, -, hstate⟩ := ih.1.ofPickle? hread
    exact ⟨hloaded, hstate ▸ ih.2⟩
  | labelled forwardingChain maxAge maxMessages backupVersion h ih => exact ⟨⟨ih.1.sessionId_eq, ih.1.cached⟩, ih.2⟩

/-- The receiver of a session knows the places from the first one of the session on. -/
theorem Sound.firstKnownIndex_le (h : session.Sound) (place : UInt32) :
    session.state.firstKnownIndex ≤ max place session.firstKnownIndex := by
  rw [← h.firstKnownIndex_eq]
  exact le_max_place place session.firstKnownIndex

/-- The key from a place on is there, from the first place on if that is later. -/
theorem Sound.exportAt?_max (h : session.Sound) (place : UInt32) :
    session.state.exportAt? (max place session.firstKnownIndex) = some (session.exportFrom place) := by
  have hkey := Receiver.exportAt?_of_le (h.firstKnownIndex_le place)
  unfold exportFrom
  rw [max_place_comm session.firstKnownIndex place, hkey]

/-- It is that of the initial ratchet at this place. -/
theorem Sound.exportFrom_eq (h : session.Sound) (place : UInt32) : session.exportFrom place =
    .ofRatchet (session.state.initial.moveTo (max place session.firstKnownIndex)) session.state.signingKey :=
  Option.some.inj ((h.exportAt?_max place).symm.trans (Receiver.exportAt?_of_le (h.firstKnownIndex_le place)))

/-- What goes on from one origin gives the same keys. -/
theorem GoesOn.exportFrom_eq (h : origin.GoesOn session) (hmade : origin.Made) (place : UInt32) :
    session.exportFrom place = origin.exportFrom place := by
  have hpast := (h.genuine hmade.genuine).2
  have hsound : session.Sound := (h.arises hmade.arises).sound
  have horigin : origin.Sound := hmade.arises.sound
  have hfirst : session.firstKnownIndex = origin.firstKnownIndex := by
    rw [hsound.firstKnownIndex_eq, horigin.firstKnownIndex_eq, Receiver.firstKnownIndex, hpast.initial_eq]
    rfl
  rw [hsound.exportFrom_eq, horigin.exportFrom_eq, hfirst, hpast.initial_eq, hpast.signingKey_eq]

/-- What goes on from one origin gives the same answers: those of the initial ratchet of the origin. -/
theorem GoesOn.decrypt_eq (h : origin.GoesOn session) (hmade : origin.Made) (message : MegolmMessage) :
    (session.decrypt message).map (·.1) =
      Receiver.answer origin.state.initial origin.state.signingKey message := by
  obtain ⟨hgenuine, hpast⟩ := h.genuine hmade.genuine
  rw [map_decrypt, hgenuine.cached.outcome_eq, hpast.initial_eq, hpast.signingKey_eq]

/-- A session can be restored from its record. -/
theorem Sound.exists_ofPickle? (h : session.Sound) (hcached : session.state.Cached) :
    ∃ restored, ofPickle? session.pickle = .ok restored ∧ restored.state = session.state := by
  have hdecode : Base64.decode? session.pickle.pickle = some (toPickle session.state) := Base64.decode?_encode _
  have hread : ofWholePickle? Receiver (toPickle session.state) = .ok session.state :=
    (session.state.hasForm.restores Receiver.reads ⟨h.point, hcached.initial_le⟩).whole
  unfold ofPickle?
  simp only [hdecode, hread]
  exact ⟨_, rfl, rfl⟩

/-- A session that is made of the key of a ratchet that was moved forward to a place is known from that place on. It
answers the messages from there on as the ratchet before the move, and gives the keys of that ratchet. -/
theorem GoesOn.of_moveTo {initial : Ratchet} {signingKey : Ed25519Key} (hpoint : Suite.isPoint signingKey = true)
    {place : UInt32} (hplace : initial.index ≤ place) {senderKey : Curve25519Key} {claimedKeys : Dict String}
    {room : RoomId} {now : Clock} (h : (ofExported senderKey claimedKeys room
      (.ofRatchet (initial.moveTo place) signingKey) now).GoesOn session) :
    session.firstKnownIndex = place ∧ session.sessionId = signingKey.toBase64 ∧
      (∀ message, place ≤ message.index →
        (session.decrypt message).map (·.1) = Receiver.answer initial signingKey message) ∧
      ∀ further, session.exportFrom further = .ofRatchet (initial.moveTo (max further place)) signingKey := by
  have hmade : (ofExported senderKey claimedKeys room (.ofRatchet (initial.moveTo place) signingKey) now).Made :=
    .exported senderKey claimedKeys room hpoint now
  have hsound : session.Sound := (h.arises hmade.arises).sound
  obtain ⟨-, hpast⟩ := h.genuine hmade.genuine
  have hinitial : session.state.initial = initial.moveTo place :=
    hpast.initial_eq.trans (Receiver.initial_ofExported _ signingKey)
  have hkey : session.state.signingKey = signingKey := hpast.signingKey_eq
  have hindex : session.firstKnownIndex = place := by
    rw [hsound.firstKnownIndex_eq, Receiver.firstKnownIndex, hinitial]
    exact Ratchet.index_moveTo initial hplace
  refine ⟨hindex, ?_, ?_, ?_⟩
  · rw [hsound.sessionId_eq, Receiver.sessionId, hkey]
  · intro message hmessage
    rw [h.decrypt_eq hmade, ← hpast.initial_eq, ← hpast.signingKey_eq, hinitial, hkey]
    exact Receiver.answer_moveTo signingKey hplace hmessage
  · intro further
    rw [hsound.exportFrom_eq, hindex, hinitial, hkey, Ratchet.moveTo_moveTo initial hplace (le_max_place further place)]

end InboundSession

open InboundSession

/-- Keys are exported faithfully from every place. However a session has gone on since it was made, its key from a
place on is there, from the first known place if that is later; it is read back from its bytes and its text; and it is
the key that any other session with this origin gives. A session that is made of the key, and whatever becomes of it,
answers every message from that place on as the session itself, and from any further place it gives the key that the
session gives. -/
theorem exported_from_every_place {origin session : InboundSession Receiver} (hmade : origin.Made)
    (h : origin.GoesOn session) (place : UInt32) :
    let start := max place session.firstKnownIndex
    let key := session.exportFrom place
    session.state.exportAt? start = some key ∧ key.index = start ∧ key.sessionId = session.sessionId ∧
      ExportedKey.ofBytes? key.toBytes = .ok key ∧ ExportedKey.ofBase64? key.toBase64 = .ok key ∧
      (∃ restored, InboundSession.ofPickle? session.pickle = .ok restored) ∧
      (∀ other, origin.GoesOn other → other.exportFrom place = key) ∧
      ∀ (senderKey : Curve25519Key) (claimedKeys : Dict String) (room : RoomId) (now : Clock) (imported),
        (ofExported senderKey claimedKeys room key now).GoesOn imported →
          imported.firstKnownIndex = start ∧ imported.sessionId = session.sessionId ∧
            (∀ message, start ≤ message.index →
              (imported.decrypt message).map (·.1) = (session.decrypt message).map (·.1)) ∧
            ∀ further, imported.exportFrom further = session.exportFrom (max further start) := by
  intro start key
  have hsound : session.Sound := (h.arises hmade.arises).sound
  obtain ⟨hgenuine, hpast⟩ := h.genuine hmade.genuine
  have hfirst : session.state.firstKnownIndex ≤ start := hsound.firstKnownIndex_le place
  have hkey : key = .ofRatchet (session.state.initial.moveTo start) session.state.signingKey :=
    hsound.exportFrom_eq place
  have hpoint : Suite.isPoint key.signingKey = true := by
    rw [hkey]
    exact hsound.point
  refine ⟨hsound.exportAt?_max place, ?_, ?_, ExportedKey.ofBytes?_toBytes hpoint,
    ExportedKey.ofBase64?_toBase64 hpoint, ?_, ?_, ?_⟩
  · rw [hkey]
    exact Ratchet.index_moveTo session.state.initial hfirst
  · rw [hkey]
    exact hsound.sessionId_eq.symm
  · obtain ⟨restored, hread, -⟩ := hsound.exists_ofPickle? hgenuine.cached
    exact ⟨restored, hread⟩
  · intro other hother
    exact (hother.exportFrom_eq hmade place).trans (h.exportFrom_eq hmade place).symm
  · intro senderKey claimedKeys room now imported himported
    rw [hkey] at himported
    obtain ⟨hindex, hid, hanswers, hkeys⟩ := himported.of_moveTo hsound.point hfirst
    refine ⟨hindex, ?_, ?_, ?_⟩
    · rw [hid, hsound.sessionId_eq, Receiver.sessionId]
    · intro message hmessage
      rw [hanswers message hmessage, h.decrypt_eq hmade, hpast.initial_eq, hpast.signingKey_eq]
    · -- The first place of the session is not behind the place that the key was exported from.
      intro further
      have hlate : session.firstKnownIndex ≤ max further start :=
        UInt32.le_trans (le_max_place place session.firstKnownIndex) (le_max_place further start)
      rw [hkeys, hsound.exportFrom_eq, max_place_of_le hlate]

end Megolm

end RoomCrypt

namespace RoomCrypt.Megolm

open InboundSession
open scoped Suite.Evaluation

/-- A session that knows the places from 253 on and has decrypted the message at place 256. -/
def exportingSession : InboundSession Receiver :=
  let origin := ofShared ⟨.ofNatLE 32 7⟩ ⟨.ofNatLE 32 8⟩ ⟨"!room:server", by decide⟩ cacheSession.sharedKey default
  origin.withState (origin.state.afterDecrypt (cacheMessage 3))

/-- Its key from place 255 on is read back from its text. What is made of it decrypts the message at place 256, and
gives the same key when it is asked for an earlier one. -/
theorem exported_from_every_place_late :
    let origin := ofShared ⟨.ofNatLE 32 7⟩ ⟨.ofNatLE 32 8⟩ ⟨"!room:server", by decide⟩ cacheSession.sharedKey default
    let key := exportingSession.exportFrom 255
    let imported := ofExported exportingSession.senderKey Dict.empty exportingSession.room key default
    origin.Made ∧ origin.GoesOn exportingSession ∧ key.index = 255 ∧ ExportedKey.ofBase64? key.toBase64 = .ok key ∧
      (imported.decrypt (cacheMessage 3)).map (·.1) = .ok ⟨[3], 256⟩ ∧ imported.exportFrom 3 = key := by
  intro origin key imported
  have hmade : origin.Made := .shared _ _ _ rfl _
  have hdecrypt : origin.decrypt (cacheMessage 3) = .ok (⟨[3], 256⟩, exportingSession) := by decide +kernel
  have hgoes : origin.GoesOn exportingSession := .decrypted .start hdecrypt
  have hagain : (exportingSession.decrypt (cacheMessage 3)).map (·.1) = .ok ⟨[3], 256⟩ := by decide +kernel
  obtain ⟨-, hindex, -, -, htext, -, -, himported⟩ := exported_from_every_place hmade hgoes 255
  obtain ⟨-, -, hanswers, hkeys⟩ := himported exportingSession.senderKey Dict.empty exportingSession.room default
    imported .start
  refine ⟨hmade, hgoes, hindex.trans ?_, htext, (hanswers (cacheMessage 3) ?_).trans hagain, ?_⟩
  · decide +kernel
  · decide +kernel
  · exact (hkeys 3).trans (congrArg exportingSession.exportFrom (by decide +kernel))

end RoomCrypt.Megolm
