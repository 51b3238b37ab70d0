import RoomCrypt.Cipher
import RoomCrypt.Entropy
import RoomCrypt.Pickle.Basic

/-!
# The group ratchet

The ratchet of a room session has four parts, each hashed less often than the next: the first part
once in `2 ^ 24` steps, the last part in every step. When a part is hashed, all parts after it are
made anew from it. So a ratchet can be moved over any distance with at most 256 hashes of each
part.
-/

namespace RoomCrypt.Megolm

variable [Suite]

/-- A group ratchet at one of its places. -/
structure Ratchet where
  part0 : Octets 32
  part1 : Octets 32
  part2 : Octets 32
  part3 : Octets 32
  /-- The place, counted modulo `2 ^ 32`. -/
  index : UInt32
deriving DecidableEq, Inhabited

namespace Ratchet

/-- One of the parts. -/
def part (ratchet : Ratchet) : Fin 4 → Octets 32
  | 0 => ratchet.part0
  | 1 => ratchet.part1
  | 2 => ratchet.part2
  | 3 => ratchet.part3

/-- The ratchet with other parts. -/
def withParts (ratchet : Ratchet) (parts : Fin 4 → Octets 32) : Ratchet :=
  ⟨parts 0, parts 1, parts 2, parts 3, ratchet.index⟩

/-- What a part becomes in place `i`. -/
def hashInto (part : Octets 32) (i : Fin 4) : Octets 32 :=
  Suite.hmac part.bytes [UInt8.ofNat i.val]

/-- Make part `i` and all parts after it from part `i`. -/
def rehashFrom (ratchet : Ratchet) (i : Fin 4) : Ratchet :=
  let source := ratchet.part i
  ratchet.withParts fun k => if i ≤ k then hashInto source k else ratchet.part k

/-- Hash part `i` in its place. -/
def rehashOnly (ratchet : Ratchet) (i : Fin 4) : Ratchet :=
  let source := ratchet.part i
  ratchet.withParts fun k => if k = i then hashInto source k else ratchet.part k

/-- Hash part `i` in its place a number of times. -/
def rehashTimes (i : Fin 4) : Nat → Ratchet → Ratchet
  | 0, ratchet => ratchet
  | count + 1, ratchet => rehashTimes i count (ratchet.rehashOnly i)

/-- The first part that a step to a place hashes: the one whose share of the place changes. -/
def levelOf (index : UInt32) : Fin 4 :=
  if index &&& 0xffffff = 0 then 0
  else if index &&& 0xffff = 0 then 1
  else if index &&& 0xff = 0 then 2
  else 3

/-- The ratchet one place further. -/
def next (ratchet : Ratchet) : Ratchet :=
  { ratchet with index := ratchet.index + 1 }.rehashFrom (levelOf (ratchet.index + 1))

/-- The share of a place that belongs to part `i` and the parts before it. -/
def share (index : UInt32) (i : Fin 4) : UInt32 :=
  index >>> UInt32.ofNat (8 * (3 - i.val))

/-- How often part `i` has to be hashed to get to a place. A share that does not change stands for
a full round if the place lies before the ratchet's. -/
def distance (ratchet : Ratchet) (target : UInt32) (i : Fin 4) : Nat :=
  let steps := (share target i - share ratchet.index i) &&& 0xff
  if steps = 0 ∧ target < ratchet.index then 256 else steps.toNat

/-- Bring part `i` to its state at a place: all but the last hash concern the part alone. -/
def alignPart (target : UInt32) (ratchet : Ratchet) (i : Fin 4) : Ratchet :=
  match ratchet.distance target i with
  | 0 => ratchet
  | steps + 1 =>
    { (rehashTimes i steps ratchet).rehashFrom i with
      index := share target i <<< UInt32.ofNat (8 * (3 - i.val)) }

/-- Move the ratchet to a place. A place before the current one is reached by going all the way
round. -/
def moveTo (ratchet : Ratchet) (target : UInt32) : Ratchet :=
  [0, 1, 2, 3].foldl (alignPart target) ratchet

/-- The parts as bytes. -/
def bytes (ratchet : Ratchet) : Octets 128 :=
  ⟨ratchet.part0.bytes ++ ratchet.part1.bytes ++ ratchet.part2.bytes ++ ratchet.part3.bytes,
    by simp⟩

/-- The ratchet with the given parts, at a place. -/
def ofBytes (octets : Octets 128) (index : UInt32) : Ratchet :=
  ⟨octets.slice 0 32 (by decide), octets.slice 32 32 (by decide), octets.slice 64 32 (by decide),
    octets.slice 96 32 (by decide), index⟩

/-- A ratchet with random parts. -/
def fresh (entropy : Entropy) : Ratchet × Entropy :=
  let (octets, entropy) := entropy.draw 128
  (ofBytes octets 0, entropy)

/-- The context in which the keys of a message are derived. -/
def context : String := "MEGOLM_KEYS"

/-- The cipher of the message at the ratchet's place. -/
def cipher (ratchet : Ratchet) : Cipher :=
  Cipher.derive ratchet.bytes.bytes context

instance : ToPickle Ratchet where
  size _ := 132
  write ratchet := do
    Pickler.bytes ratchet.part0.bytes
    Pickler.bytes ratchet.part1.bytes
    Pickler.bytes ratchet.part2.bytes
    Pickler.bytes ratchet.part3.bytes
    Pickler.uint32 ratchet.index

instance : OfPickle Ratchet where
  read := do
    let octets ← Unpickler.octets 128
    let index ← Unpickler.uint32
    pure (ofBytes octets index)

end Ratchet

end RoomCrypt.Megolm
