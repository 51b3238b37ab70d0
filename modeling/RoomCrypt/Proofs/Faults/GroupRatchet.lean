import RoomCrypt.Proofs.Faults.Operations
import RoomCrypt.Proofs.Megolm.Exchange
import RoomCrypt.Proofs.Megolm.FastForward

/-!
# Moving a group ratchet that can be anything

The parts of a ratchet and the seeds of their hashes are looked up by numbers that are counted, a place is
cut by shifts that are computed, and a loop counts down how often a part is still to be hashed. The numbers
never leave the four parts, so that no ratchet faults on its way to a place, also if the place lies before it or if
it was read from a pickle and could not have come about otherwise.
-/

namespace RoomCrypt.Megolm

variable [Suite] {σ : Type}

namespace Ratchet

/-- The seeds of the hashes, one for each part. -/
def seeds : List UInt8 := [0, 1, 2, 3]

omit [Suite] in
/-- The part of a number. -/
def partGuarded (ratchet : Ratchet) (number : ℕ) : Checked (Octets 32) :=
  if h : number < 4 then .ok (ratchet.part ⟨number, h⟩) else .error .outOfRange

omit [Suite] in
/-- The ratchet with another part of a number. -/
def withPartGuarded (ratchet : Ratchet) (number : ℕ) (part : Octets 32) : Checked Ratchet :=
  if number < 4 then .ok (ratchet.withParts fun k => if k.val = number then part else ratchet.part k)
  else .error .outOfRange

/-- Make one part from another one. -/
def rehashGuarded (source : ℕ) (ratchet : Ratchet) (number : ℕ) : Checked Ratchet := do
  let part ← ratchet.partGuarded source
  let seed ← Checked.get seeds number
  ratchet.withPartGuarded number (Suite.hmac part.bytes [seed])

/-- Hash a part in its place as long as there is more than one step to go. -/
def spinGuarded (number : ℕ) : ℕ → Ratchet → Checked Ratchet
  | 0, ratchet => pure ratchet
  | 1, ratchet => pure ratchet
  | steps + 2, ratchet => do
    let ratchet ← rehashGuarded number ratchet number
    spinGuarded number (steps + 1) ratchet

/-- Make a part and all parts after it from the part, the last part first. -/
def rehashBelowGuarded (number : ℕ) (ratchet : Ratchet) : Checked Ratchet :=
  (List.range' number (4 - number)).reverse.foldlM (rehashGuarded number) ratchet

/-- Bring a part to its state at a place. -/
def alignGuarded (target : UInt32) (ratchet : Ratchet) (number : ℕ) : Checked Ratchet := do
  let below ← Checked.sub (← Checked.sub 4 number) 1
  let shift := below * 8
  let mask ← Checked.shiftLeft 0xffffffff shift
  let steps := ((← Checked.shiftRight target shift) - (← Checked.shiftRight ratchet.index shift)) &&& 0xff
  if steps = 0 ∧ ¬ target < ratchet.index then pure ratchet
  else do
    let steps := if steps = 0 then 0x100 else steps
    let ratchet ← spinGuarded number steps.toNat ratchet
    let ratchet ← rehashBelowGuarded number ratchet
    pure { ratchet with index := target &&& mask }

/-- Move the ratchet to a place. -/
def moveToGuarded (ratchet : Ratchet) (target : UInt32) : Checked Ratchet :=
  [0, 1, 2, 3].foldlM (alignGuarded target) ratchet

theorem rehashGuarded_self (ratchet : Ratchet) (i : Fin 4) :
    rehashGuarded i.val ratchet i.val = .ok (ratchet.rehashOnly i) := by
  rcases part_cases i with rfl | rfl | rfl | rfl <;> rfl

theorem spinGuarded_eq (i : Fin 4) (steps : ℕ) (ratchet : Ratchet) :
    spinGuarded i.val (steps + 1) ratchet = .ok (rehashTimes i steps ratchet) := by
  induction steps generalizing ratchet with
  | zero => rfl
  | succ steps ih =>
    rw [spinGuarded, rehashGuarded_self]
    exact ih (ratchet.rehashOnly i)

theorem rehashBelowGuarded_eq (i : Fin 4) (ratchet : Ratchet) :
    rehashBelowGuarded i.val ratchet = .ok (ratchet.rehashFrom i) := by
  rcases part_cases i with rfl | rfl | rfl | rfl <;> rfl

omit [Suite] in
/-- A share that is moved back is the place without its lowest bits. -/
theorem share_shiftLeft_eq_and (target : UInt32) (i : Fin 4) :
    share target i <<< UInt32.ofNat (8 * (3 - i.val)) = target &&& 0xffffffff <<< UInt32.ofNat (8 * (3 - i.val)) := by
  apply UInt32.toBitVec_inj.mp
  rcases part_cases i with rfl | rfl | rfl | rfl
  all_goals exact BitVec.shiftLeft_ushiftRight

omit [Suite] in
/-- A part whose share stays is not hashed, unless the place lies before the ratchet. -/
theorem distance_of_stays (ratchet : Ratchet) {target steps : UInt32} {i : Fin 4}
    (hsteps : (share target i - share ratchet.index i) &&& 0xff = steps)
    (hstays : steps = 0 ∧ ¬ target < ratchet.index) : ratchet.distance target i = 0 := by
  obtain ⟨rfl, hplace⟩ := hstays
  simp [distance, hsteps, hplace]

omit [Suite] in
/-- Otherwise it is hashed at least once, and a whole round if its share stays. -/
theorem distance_of_moves (ratchet : Ratchet) {target steps : UInt32} {i : Fin 4}
    (hsteps : (share target i - share ratchet.index i) &&& 0xff = steps)
    (hmoves : ¬ (steps = 0 ∧ ¬ target < ratchet.index)) :
    ∃ rounds, (if steps = 0 then 0x100 else steps).toNat = rounds + 1 ∧ ratchet.distance target i = rounds + 1 := by
  by_cases hzero : steps = 0
  · have hplace : target < ratchet.index := by
      by_contra hplace
      exact hmoves ⟨hzero, hplace⟩
    exact ⟨255, by simp [hzero], by simp [distance, hsteps, hzero, hplace]⟩
  · obtain ⟨rounds, hrounds⟩ := Nat.exists_eq_succ_of_ne_zero fun h => hzero (UInt32.toNat_inj.mp h)
    exact ⟨rounds, by simp [hzero, hrounds], by simp [distance, hsteps, hzero, hrounds]⟩

/-- A number that counts the parts is one of a part. -/
theorem alignGuarded_eq (target : UInt32) (ratchet : Ratchet) (i : Fin 4) :
    alignGuarded target ratchet i.val = .ok (alignPart target ratchet i) := by
  have hi := i.isLt
  have hshift : 8 * (3 - i.val) < 32 := by omega
  have hcount : (4 - i.val - 1) * 8 = 8 * (3 - i.val) := by omega
  simp only [alignGuarded, Checked.sub_eq (Nat.le_of_lt hi), Checked.sub_eq (show 1 ≤ 4 - i.val by omega), hcount,
    Checked.shiftLeft, Checked.shiftRight, if_pos hshift, bind, Except.bind]
  rw [alignPart, share_shiftLeft_eq_and]
  generalize hsteps : target >>> UInt32.ofNat (8 * (3 - i.val)) - ratchet.index >>> UInt32.ofNat (8 * (3 - i.val)) &&&
    0xff = steps
  by_cases hstays : steps = 0 ∧ ¬ target < ratchet.index
  · rw [if_pos hstays, distance_of_stays ratchet hsteps hstays]
    rfl
  · obtain ⟨rounds, hrounds, hdistance⟩ := distance_of_moves ratchet hsteps hstays
    rw [if_neg hstays, hrounds, hdistance, spinGuarded_eq]
    simp only [rehashBelowGuarded_eq]
    rfl

/-- No ratchet faults on its way to a place. -/
theorem moveToGuarded_eq (ratchet : Ratchet) (target : UInt32) :
    ratchet.moveToGuarded target = .ok (ratchet.moveTo target) := by
  change (([0, 1, 2, 3] : List (Fin 4)).map Fin.val).foldlM (alignGuarded target) ratchet = _
  rw [List.foldlM_map]
  simp only [alignGuarded_eq]
  exact List.foldlM_pure

end Ratchet

namespace Receiver

/-- Check the MAC of a message at the ratchet's place and decrypt it. -/
def decryptAtGuarded (ratchet : Ratchet) (message : MegolmMessage) : Guarded σ DecryptError Bytes := do
  let cipher ← Cipher.deriveGuarded ratchet.bytes.bytes Ratchet.context
  if cipher.mac message.body = message.mac then
    match cipher.decrypt? message.ciphertext with
    | some plain => pure plain
    | none => throw .invalidPadding
  else throw .invalidMac

theorem on_decryptAtGuarded (ratchet : Ratchet) (message : MegolmMessage) (state : σ) :
    (decryptAtGuarded ratchet message).on state = .ok (decryptAt ratchet message, state) := by
  rw [decryptAtGuarded, Guarded.on_checked_bind (Cipher.deriveGuarded_eq _ _), decryptAt,
    Ratchet.cipher]
  by_cases hmac : (Cipher.derive ratchet.bytes.bytes Ratchet.context).mac message.body = message.mac
  · rw [if_pos hmac]
    simp only [if_pos hmac]
    cases (Cipher.derive ratchet.bytes.bytes Ratchet.context).decrypt? message.ciphertext <;> rfl
  · rw [if_neg hmac]
    simp only [if_neg hmac]
    rfl

/-- Decrypt a message. -/
def decryptGuarded (message : MegolmMessage) : Guarded Receiver DecryptError DecryptedMessage := do
  let receiver ← get
  if !Suite.verify receiver.signingKey message.signedBytes message.signature then
    throw .invalidSignature
  if message.index < receiver.firstKnownIndex then
    throw (.unknownIndex receiver.firstKnownIndex message.index)
  let early : Bool := message.index < receiver.latest.index
  let ratchet ← (if early then receiver.initial else receiver.latest).moveToGuarded message.index
  let plain ← decryptAtGuarded ratchet message
  modify fun receiver => { receiver with verified := true }
  if !early then
    modify fun receiver => { receiver with latest := ratchet }
  pure ⟨plain, message.index⟩

/-- No receiver faults on a message, whatever they are. -/
theorem matches_decryptGuarded (receiver : Receiver) (message : MegolmMessage) :
    (decryptGuarded message).Matches Eq (decryptInPlace message) receiver receiver := by
  refine (Guarded.matches_get receiver).then fun receiver after _ => ?_
  by_cases hverify : Suite.verify receiver.signingKey message.signedBytes message.signature = true
  · simp only [hverify, Bool.not_true, Bool.false_eq_true, if_false]
    by_cases hknown : message.index < receiver.firstKnownIndex
    · simp only [hknown, if_true]
      exact Guarded.matches_throw rfl _
    · simp only [hknown, if_false]
      refine Guarded.Matches.checked (Ratchet.moveToGuarded_eq _ message.index) ?_
      refine (Guarded.matches_lift (on_decryptAtGuarded _ message after)).then fun plain after _ => ?_
      refine (Guarded.matches_modify _ after).then fun _ after _ => ?_
      by_cases hearly : message.index < receiver.latest.index
      · simp only [hearly, decide_true, Bool.not_true, Bool.false_eq_true, if_false]
        exact Guarded.matches_pure rfl _
      · simp only [hearly, decide_false, Bool.not_false, if_true]
        exact (Guarded.matches_modify _ after).then fun _ after _ => Guarded.matches_pure rfl _
  · simp only [hverify, Bool.not_false, if_true]
    exact Guarded.matches_throw rfl _

/-- So none faults on any messages, and they come to what decryption says. -/
theorem each_decryptGuarded (receiver : Receiver) (messages : List MegolmMessage) :
    Guarded.each decryptGuarded messages receiver = .ok (InPlace.settleAll decrypt messages receiver) :=
  Guarded.each_eq (fun message receiver => by
    rw [(matches_decryptGuarded receiver message).on_eq, on_decryptInPlace]) messages receiver

end Receiver

end RoomCrypt.Megolm
