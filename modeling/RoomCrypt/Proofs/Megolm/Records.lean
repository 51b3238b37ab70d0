import RoomCrypt.Proofs.Megolm.Provenance
import RoomCrypt.Proofs.Pickle.RoundTrip

/-!
# Room sessions and their records

A room session is restored from its record as it was, whatever messages have come to it. Only its limit of time loses
something: its record has full milliseconds, and no more than a 64-bit number of them.
-/

namespace RoomCrypt

namespace Duration

theorem milliseconds_ofMilliseconds (ms : UInt64) : (ofMilliseconds ms).milliseconds = ms.toNat := by
  unfold milliseconds ofMilliseconds
  dsimp only
  rw [UInt64.toNat_div, Nat.mul_div_cancel _ (by decide)]
  exact Nat.div_add_mod ms.toNat 1000

/-- A duration of milliseconds is stored as it is. -/
theorem clampedMilliseconds_ofMilliseconds (ms : UInt64) : (ofMilliseconds ms).clampedMilliseconds = ms := by
  unfold clampedMilliseconds
  rw [milliseconds_ofMilliseconds, Nat.min_eq_left (Nat.le_sub_one_of_lt ms.toNat_lt), UInt64.ofNat_toNat]

/-- A duration as it comes back from a record. -/
def recorded (d : Duration) : Duration :=
  ofMilliseconds d.clampedMilliseconds

/-- It has as many milliseconds as a 64-bit number can hold. -/
theorem milliseconds_recorded (d : Duration) : d.recorded.milliseconds = min d.milliseconds (2 ^ 64 - 1) := by
  unfold recorded clampedMilliseconds
  rw [milliseconds_ofMilliseconds]
  exact UInt64.toNat_ofNat_of_lt' (Nat.lt_of_le_of_lt (Nat.min_le_right _ _) (by decide))

/-- And it has no parts of one. -/
theorem nanoseconds_recorded (d : Duration) : d.recorded.nanoseconds.val % 1000000 = 0 :=
  Nat.mul_mod_left _ _

end Duration

namespace Megolm.InboundSession

variable [Suite]

omit [Suite] in
/-- A session as it comes back from its record. -/
def recorded (session : InboundSession Receiver) : InboundSession Receiver :=
  { session with maxAge := session.maxAge.map Duration.recorded }

omit [Suite] in
/-- A limit of full milliseconds does not change. -/
theorem recorded_eq {session : InboundSession Receiver} (ageMs : Option UInt64)
    (hage : session.maxAge = ageMs.map Duration.ofMilliseconds) : session.recorded = session := by
  have hsame : (ageMs.map Duration.ofMilliseconds).map Duration.recorded = ageMs.map Duration.ofMilliseconds := by
    rw [Option.map_map]
    refine congrArg (ageMs.map ·) (funext fun ms => ?_)
    exact congrArg Duration.ofMilliseconds (Duration.clampedMilliseconds_ofMilliseconds ms)
  unfold recorded
  rw [hage, hsame, ← hage]

/-- A session is restored from its record if its receiver can be restored and all that is known from the receiver is as
there. -/
theorem ofPickle?_pickle {session : InboundSession Receiver} (hreceiver : session.state.Restorable)
    (hid : session.sessionId = session.state.sessionId)
    (hindex : session.firstKnownIndex = session.state.firstKnownIndex) :
    ofPickle? session.pickle = .ok session.recorded := by
  have hdecode : Base64.decode? session.pickle.pickle = some (toPickle session.state) := Base64.decode?_encode _
  have hread : ofWholePickle? Receiver (toPickle session.state) = .ok session.state :=
    (session.state.hasForm.restores Receiver.reads hreceiver).whole
  have hlimit : session.pickle.maxAgeMs.map Duration.ofMilliseconds = session.recorded.maxAge := by
    unfold pickle recorded
    rw [Option.map_map]
    rfl
  unfold ofPickle?
  simp only [hdecode, hread, bind, Except.bind, ← hid, ← hindex, hlimit]
  rfl

/-- The receiver of a session can be restored however the session has come about. -/
theorem Arises.restorable {session : InboundSession Receiver} (h : session.Arises) : session.state.Restorable := by
  refine ⟨h.sound.point, ?_⟩
  induction h with
  | shared => exact UInt32.le_refl _
  | exported => exact UInt32.le_refl _
  | restored hread => exact (restorable_of_ofPickle? hread).1.initial_le
  | labelled _ _ _ _ _ ih => exact ih
  | @decrypted session after message text h hdecrypt ih =>
    obtain rfl := eq_of_decrypt hdecrypt
    have hkeeps := session.state.precedes_afterDecrypt message
    exact hkeeps.initial_eq.symm ▸ UInt32.le_trans ih hkeeps.latest_le

end Megolm.InboundSession

end RoomCrypt
