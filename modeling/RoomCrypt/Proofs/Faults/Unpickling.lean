import RoomCrypt.Megolm.Receiver
import RoomCrypt.Olm.Channel
import RoomCrypt.Proofs.Faults.Operations
import RoomCrypt.Proofs.Pickle.Reading

/-!
# Reading with a cursor

A cursor is a source and a place in it. How many bytes are left is a difference of the two, bytes are read as
a slice of the source, and a value inside of another one is read from the slice that is left by a cursor of
its own, whose place then counts for the outer one. The only check is whether enough bytes are left; that
the differences and slices are in range follows from where a cursor can stand, which is always behind a first
part of its source.

So reading with a cursor never faults, takes no more than there is, and reads what unpickling reads.
-/

namespace RoomCrypt

variable {α β : Type}

/-- A place in a source. -/
structure Cursor where
  source : Bytes
  /-- How many bytes were read. -/
  position : ℕ
deriving DecidableEq

/-- The cursor stands in a source before the bytes that are left. -/
def Cursor.Marks (source : Bytes) (cursor : Cursor) (left : Bytes) : Prop :=
  ∃ done, source = done ++ left ∧ cursor = ⟨source, done.length⟩

/-- A step of reading with a cursor. -/
abbrev Reading := Guarded Cursor PickleError

namespace Reading

/-- Read a number of bytes. -/
def take (length : ℕ) : Reading Bytes := do
  let cursor ← get
  let available ← Checked.sub cursor.source.length cursor.position
  if available < length then throw (.truncated length available)
  else do
    set ({ cursor with position := cursor.position + length } : Cursor)
    Checked.slice cursor.source cursor.position (cursor.position + length)

/-- Read bytes of a fixed length. -/
def octets (n : ℕ) : Reading (Octets n) := do
  Checked.exactly n (← take n)

/-- Read a 32-bit number, highest byte first. -/
def uint32 : Reading UInt32 :=
  Octets.toUInt32 <$> octets 4

/-- Read a truth value from one byte. -/
def bool : Reading Bool := do
  let byte ← Checked.get (← take 1) 0
  if byte = 0 then pure false
  else if byte = 1 then pure true
  else throw (.malformed .invalidBool)

/-- Read a value from the front of a byte string; the answer has the number of bytes consumed. -/
def decode (reading : Reading α) (source : Bytes) : Checked (Except PickleError (α × ℕ)) := do
  let (outcome, cursor) ← reading.on ⟨source, 0⟩
  pure (outcome.map fun value => (value, cursor.position))

/-- Read a value from the slice that is left and move on by what it has consumed. -/
def nested (reading : Reading α) : Reading α := do
  let cursor ← get
  let left ← Checked.slice cursor.source cursor.position cursor.source.length
  match ← (reading.decode left : Checked _) with
  | .ok (value, consumed) =>
    set ({ cursor with position := cursor.position + consumed } : Cursor)
    pure value
  | .error e => throw e

/-- Read a number of values. -/
def times (reading : Reading α) : ℕ → Reading (List α)
  | 0 => pure []
  | count + 1 => do
    let item ← nested reading
    let rest ← times reading count
    pure (item :: rest)

/-- Read a list of at most `max` elements. -/
def list (reading : Reading α) (max : ℕ) : Reading (List α) := do
  let count ← uint32
  if max < count.toNat then throw (.malformed .tooManyElements)
  else times reading count.toNat

/-! ### What is read -/

/-- Wherever the cursor stands, it reads what a step of unpickling reads from the bytes that are left, and
then stands before what the step leaves. -/
def Follows (reading : Reading α) (step : Unpickler α) : Prop :=
  ∀ source cursor left, Cursor.Marks source cursor left →
    reading.Matches (Cursor.Marks source) step cursor left

theorem follows_pure (value : α) : Follows (pure value) (pure value) :=
  fun _ _ _ h => Guarded.matches_pure h value

theorem follows_throw (e : PickleError) : Follows (throw e : Reading α) (throw e) :=
  fun _ _ _ h => Guarded.matches_throw h e

/-- Fields are read one after the other. -/
theorem Follows.bind {reading : Reading α} {step : Unpickler α} (h : Follows reading step)
    {next : α → Reading β} {further : α → Unpickler β} (hnext : ∀ value, Follows (next value) (further value)) :
    Follows (reading >>= next) (step >>= further) :=
  fun source cursor left hmarks =>
    (h source cursor left hmarks).bind fun value between rest _ hbetween => hnext value source between rest hbetween

/-- A field is read as its value. -/
theorem Follows.map {reading : Reading α} {step : Unpickler α} (h : Follows reading step) (make : α → β) :
    Follows (make <$> reading) (make <$> step) :=
  h.bind fun _ => follows_pure _

/-- A check is made on both sides. -/
theorem Follows.ite {p : Prop} [Decidable p] {reading other : Reading α} {step further : Unpickler α}
    (h : Follows reading step) (hother : Follows other further) :
    Follows (if p then reading else other) (if p then step else further) := by
  by_cases hp : p
  · simpa only [hp, if_true] using h
  · simpa only [hp, if_false] using hother

/-- What comes after a check is read if the check is passed. -/
theorem Follows.unless {p : Prop} [Decidable p] {e : PickleError} {reading : Reading α} {step : Unpickler α}
    (h : Follows reading step) :
    Follows (if p then (throw e : Reading PUnit) >>= fun _ => reading else reading)
      (if p then (throw e : Unpickler PUnit) >>= fun _ => step else step) :=
  ((follows_throw e).bind fun _ => h).ite h

/-- The bytes that are left are counted by a difference that is not below zero. -/
theorem sub_of_marks {source left : Bytes} {cursor : Cursor} (h : Cursor.Marks source cursor left) :
    Checked.sub cursor.source.length cursor.position = .ok left.length := by
  obtain ⟨done, rfl, rfl⟩ := h
  rw [Checked.sub_eq (by simp), List.length_append, Nat.add_sub_cancel_left]

/-- They are a slice that is in range. -/
theorem slice_of_marks {source left : Bytes} {cursor : Cursor} (h : Cursor.Marks source cursor left) :
    Checked.slice cursor.source cursor.position cursor.source.length = .ok left := by
  obtain ⟨done, rfl, rfl⟩ := h
  rw [Checked.slice_from (by simp), List.drop_left]

/-- What is read with some bytes follows what is unpickled with them. -/
theorem follows_take {n : ℕ} {next : Bytes → Reading α} {further : Octets n → Unpickler α}
    (hnext : ∀ taken : Octets n, Follows (next taken.bytes) (further taken)) :
    Follows (take n >>= next) (Unpickler.octets n >>= further) := by
  intro source cursor left hmarks
  unfold Guarded.Matches
  rw [InPlace.on_bind, Unpickler.on_octets]
  have hsub := sub_of_marks hmarks
  cases hsplit : Octets.splitAt? n left with
  | none =>
    have hshort : left.length < n := Octets.splitAt?_eq_none_iff.mp hsplit
    have htake : (take n).on cursor = .ok (.error (.truncated n left.length), cursor) := by
      rw [take, Guarded.on_bind_of_ok (Guarded.on_get cursor), Guarded.on_checked_bind hsub,
        if_pos hshort, Guarded.on_throw]
    exact ⟨cursor, Guarded.on_bind_of_error htake next, hmarks⟩
  | some found =>
    obtain ⟨taken, rest⟩ := found
    obtain rfl := Octets.splitAt?_eq_some_iff.mp hsplit
    obtain ⟨done, rfl, rfl⟩ := hmarks
    have henough : ¬ (taken.bytes ++ rest).length < n := by simp
    have hslice : Checked.slice (done ++ (taken.bytes ++ rest)) done.length (done.length + n) = .ok taken.bytes := by
      have hmiddle := Checked.slice_append done taken.bytes rest
      rwa [taken.length_eq] at hmiddle
    have htake : (take n).on ⟨done ++ (taken.bytes ++ rest), done.length⟩ =
        .ok (.ok taken.bytes, ⟨done ++ (taken.bytes ++ rest), done.length + n⟩) := by
      rw [take, Guarded.on_bind_of_ok (Guarded.on_get _), Guarded.on_checked_bind hsub,
        if_neg henough, Guarded.on_bind_of_ok (Guarded.on_set _ _), Guarded.on_checked hslice]
    rw [Guarded.on_bind_of_ok htake]
    refine hnext taken _ _ rest ⟨done ++ taken.bytes, ?_, ?_⟩
    · rw [List.append_assoc]
    · rw [List.length_append, taken.length_eq]

/-- Bytes of a fixed length are copied to where there is room for just them. -/
theorem follows_octets (n : ℕ) : Follows (octets n) (Unpickler.octets n) := by
  rw [← bind_pure (Unpickler.octets n)]
  exact follows_take fun taken source cursor left hmarks =>
    ⟨cursor, Guarded.on_checked (Checked.exactly_bytes taken) cursor, hmarks⟩

theorem follows_uint32 : Follows uint32 Unpickler.uint32 :=
  (follows_octets 4).map _

theorem follows_bool : Follows bool Unpickler.bool := by
  apply follows_take
  rintro ⟨bytes, hlength⟩ source cursor left hmarks
  obtain ⟨byte, rfl⟩ := List.length_eq_one_iff.mp hlength
  apply Guarded.Matches.checked (Checked.get_eq rfl)
  simp only [List.cons.injEq, and_true]
  exact (follows_pure false).ite ((follows_pure true).ite (follows_throw _)) source cursor left hmarks

/-- What a decoder answers: a value and how many bytes it has consumed, which are no more than there were, or
an error, as unpickling says. -/
inductive Decodes (reading : Reading α) (step : Unpickler α) (source : Bytes) : Prop where
  | value (value : α) (consumed : ℕ) (hconsumed : consumed ≤ source.length)
      (hdecode : reading.decode source = .ok (.ok (value, consumed)))
      (hread : Unpickler.decodeWith step source = .ok (value, source.drop consumed))
  | error (e : PickleError) (hdecode : reading.decode source = .ok (.error e))
      (hread : Unpickler.decodeWith step source = .error e)

/-- A decoder starts a cursor of its own. -/
theorem Follows.decodes {reading : Reading α} {step : Unpickler α} (h : Follows reading step) (source : Bytes) :
    Decodes reading step source := by
  obtain ⟨after, hreading, done, hsource, hafter⟩ := h source ⟨source, 0⟩ source ⟨[], rfl, rfl⟩
  rcases hstep : InPlace.on step source with ⟨outcome, left⟩
  rw [hstep] at hreading hsource
  cases outcome with
  | error e =>
    refine .error e ?_ (Unpickler.decodeWith_of_error hstep)
    rw [decode, hreading]
    rfl
  | ok value =>
    refine .value value done.length (by simp [hsource]) ?_ ?_
    · rw [decode, hreading, hafter]
      rfl
    · rw [Unpickler.decodeWith_eq_ok_iff, hstep, hsource, List.drop_left]

/-- A value inside of another one is read by a cursor of its own. -/
theorem Follows.nested {reading : Reading α} {step : Unpickler α} (h : Follows reading step) :
    Follows (nested reading) (Unpickler.nested step) := by
  intro source cursor left hmarks
  unfold Guarded.Matches
  rw [Unpickler.on_nested, Reading.nested, Guarded.on_bind_of_ok (Guarded.on_get cursor),
    Guarded.on_checked_bind (slice_of_marks hmarks)]
  cases h.decodes left with
  | error e hdecode hread =>
    rw [hread, Guarded.on_checked_bind hdecode]
    exact ⟨cursor, rfl, hmarks⟩
  | value value consumed hconsumed hdecode hread =>
    obtain ⟨done, rfl, rfl⟩ := hmarks
    rw [hread, Guarded.on_checked_bind hdecode]
    refine ⟨_, rfl, done ++ left.take consumed, ?_, ?_⟩
    · rw [List.append_assoc]
      exact congrArg (done ++ ·) (List.take_append_drop consumed left).symm
    · simp [hconsumed]

section

variable [OfPickle α] {reading : Reading α}

/-- Elements are read one after the other. -/
theorem Follows.times (h : Follows reading OfPickle.read) (count : ℕ) :
    Follows (times reading count) (Unpickler.values α count) := by
  induction count with
  | zero => exact follows_pure []
  | succ count ih => exact h.nested.bind fun item => ih.bind fun rest => follows_pure _

/-- The elements of a list are read if there are not too many of them. -/
theorem Follows.list (h : Follows reading OfPickle.read) (max : ℕ) :
    Follows (list reading max) (Unpickler.list α max) :=
  follows_uint32.bind fun count => (follows_throw _).ite (h.times count.toNat)

end

end Reading

/-! ### The values that are pickled -/

/-- Values that are read with a cursor, as they are unpickled. -/
class OfCursor (α : Type) [OfPickle α] where
  reading : Reading α
  follows : reading.Follows OfPickle.read

/-- Read a value inside of another one. -/
def Reading.value (α : Type) [OfPickle α] [OfCursor α] : Reading α :=
  Reading.nested OfCursor.reading

theorem Reading.follows_value (α : Type) [OfPickle α] [OfCursor α] :
    Reading.Follows (Reading.value α) (Unpickler.value α) :=
  OfCursor.follows.nested

instance : OfCursor UInt32 := ⟨Reading.uint32, Reading.follows_uint32⟩

instance : OfCursor Bool := ⟨Reading.bool, Reading.follows_bool⟩

instance : OfCursor Curve25519Key where
  reading := Curve25519Key.mk <$> Reading.octets 32
  follows := (Reading.follows_octets 32).map _

variable [Suite]

instance : OfCursor Ed25519Key where
  reading := do
    match Ed25519Key.ofOctets? (← Reading.octets 32) with
    | some key => pure key
    | none => throw (.malformed .invalidEd25519Key)
  follows := (Reading.follows_octets 32).bind fun octets => by
    cases Ed25519Key.ofOctets? octets with
    | some key => exact Reading.follows_pure key
    | none => exact Reading.follows_throw _

namespace Olm

instance : OfCursor ChainKey where
  reading := do
    let key ← Reading.octets 32
    let index ← Reading.uint32
    pure ⟨key, index⟩
  follows := (Reading.follows_octets 32).bind fun _ => Reading.follows_uint32.bind fun _ => Reading.follows_pure _

instance : OfCursor MessageKey where
  reading := do
    let key ← Reading.octets 32
    let index ← Reading.uint32
    pure ⟨key.bytes, index⟩
  follows := (Reading.follows_octets 32).bind fun _ => Reading.follows_uint32.bind fun _ => Reading.follows_pure _

instance : OfCursor RootKey where
  reading := RootKey.mk <$> Reading.octets 32
  follows := (Reading.follows_octets 32).map _

instance : OfCursor RatchetKeyPair where
  reading := do
    let publicKey ← Reading.value Curve25519Key
    let secret := ⟨← Reading.octets 32⟩
    if (Suite.publicKey secret).same publicKey then pure ⟨secret, publicKey⟩
    else throw (.malformed .keyPairMismatch)
  follows := (Reading.follows_value Curve25519Key).bind fun _ => (Reading.follows_octets 32).bind fun _ =>
    (Reading.follows_pure _).ite (Reading.follows_throw _)

instance : OfCursor SenderChain where
  reading := do
    let keyPair ← Reading.value RatchetKeyPair
    let chainKey ← Reading.value ChainKey
    pure ⟨keyPair, chainKey⟩
  follows := (Reading.follows_value RatchetKeyPair).bind fun _ => (Reading.follows_value ChainKey).bind fun _ =>
    Reading.follows_pure _

instance : OfCursor ReceiverChain where
  reading := do
    let ratchetKey ← Reading.value Curve25519Key
    let chainKey ← Reading.value ChainKey
    pure ⟨ratchetKey, chainKey⟩
  follows := (Reading.follows_value Curve25519Key).bind fun _ => (Reading.follows_value ChainKey).bind fun _ =>
    Reading.follows_pure _

instance : OfCursor SkippedKey where
  reading := do
    let ratchetKey ← Reading.value Curve25519Key
    let messageKey ← Reading.value MessageKey
    pure ⟨ratchetKey, messageKey⟩
  follows := (Reading.follows_value Curve25519Key).bind fun _ => (Reading.follows_value MessageKey).bind fun _ =>
    Reading.follows_pure _

/-- Read a ratchet that is to have the given bounds. -/
def Ratchet.reading (config : RatchetConfig) : Reading Ratchet := do
  let rootKey ← Reading.value RootKey
  let senders ← Reading.list (OfCursor.reading : Reading SenderChain) 1
  let receivers ← Reading.list (OfCursor.reading : Reading ReceiverChain) config.maxReceiverChains
  let skipped ← Reading.list (OfCursor.reading : Reading SkippedKey) config.maxSkippedKeys
  pure ⟨rootKey, senders.head?, receivers, .ofKeys skipped config.maxSkippedKeys, config⟩

theorem Ratchet.follows_reading (config : RatchetConfig) : (Ratchet.reading config).Follows (Ratchet.readWith config) :=
  (Reading.follows_value RootKey).bind fun _ => (OfCursor.follows.list 1).bind fun _ =>
    (OfCursor.follows.list config.maxReceiverChains).bind fun _ =>
      (OfCursor.follows.list config.maxSkippedKeys).bind fun _ => Reading.follows_pure _

/-- Read a channel that is to have the given bounds. -/
def Channel.reading (config : RatchetConfig) : Reading Channel := do
  let version ← Reading.uint32
  if version ≠ pickleVersion then throw (.unsupportedVersion version)
  let received ← Reading.bool
  let identity ← Reading.value Curve25519Key
  let base ← Reading.value Curve25519Key
  let oneTime ← Reading.value Curve25519Key
  let ratchet ← Reading.nested (Ratchet.reading config)
  pure ⟨⟨identity, base, oneTime⟩, ratchet, received⟩

theorem Channel.follows_reading (config : RatchetConfig) : (Channel.reading config).Follows (Channel.readWith config) :=
  Reading.follows_uint32.bind fun _ => Reading.Follows.unless <| Reading.follows_bool.bind fun _ =>
    (Reading.follows_value Curve25519Key).bind fun _ => (Reading.follows_value Curve25519Key).bind fun _ =>
      (Reading.follows_value Curve25519Key).bind fun _ => (Ratchet.follows_reading config).nested.bind fun _ =>
        Reading.follows_pure _

end Olm

namespace Megolm

/-- The ratchet with the given parts, each copied out of its place. -/
def Ratchet.ofBytesGuarded (octets : Octets 128) (index : UInt32) : Checked Ratchet := do
  let part0 ← Checked.part octets.bytes 0 32 32
  let part1 ← Checked.part octets.bytes 32 64 32
  let part2 ← Checked.part octets.bytes 64 96 32
  let part3 ← Checked.part octets.bytes 96 128 32
  pure ⟨part0, part1, part2, part3, index⟩

omit [Suite] in
theorem Ratchet.ofBytesGuarded_eq (octets : Octets 128) (index : UInt32) :
    ofBytesGuarded octets index = .ok (ofBytes octets index) := by
  simp only [ofBytesGuarded, bind, Except.bind]
  rw [Checked.part_octets octets 0 32 (by decide) rfl, Checked.part_octets octets 32 32 (by decide) rfl,
    Checked.part_octets octets 64 32 (by decide) rfl, Checked.part_octets octets 96 32 (by decide) rfl]
  rfl

instance : OfCursor Ratchet where
  reading := do
    let octets ← Reading.octets 128
    let index ← Reading.uint32
    Ratchet.ofBytesGuarded octets index
  follows := (Reading.follows_octets 128).bind fun octets => Reading.follows_uint32.bind fun index => by
    rw [Ratchet.ofBytesGuarded_eq]
    exact Reading.follows_pure _

instance : OfCursor Receiver where
  reading := do
    let version ← Reading.uint32
    if version ≠ Receiver.pickleVersion then throw (.unsupportedVersion version)
    let initial ← Reading.value Ratchet
    let latest ← Reading.value Ratchet
    if latest.index < initial.index then throw (.malformed .latestBeforeInitial)
    let signingKey ← Reading.value Ed25519Key
    let verified ← Reading.bool
    pure ⟨initial, latest, signingKey, verified⟩
  follows := by
    refine Reading.follows_uint32.bind fun version => Reading.Follows.unless ?_
    refine (Reading.follows_value Ratchet).bind fun initial => (Reading.follows_value Ratchet).bind fun latest => ?_
    refine Reading.Follows.unless ?_
    exact (Reading.follows_value Ed25519Key).bind fun signingKey => Reading.follows_bool.bind fun verified =>
      Reading.follows_pure _

end Megolm

end RoomCrypt
