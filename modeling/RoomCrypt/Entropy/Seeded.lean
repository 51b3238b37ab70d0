import RoomCrypt.Entropy

/-!
# Random bytes from a seed

The same seed always gives the same bytes, so a run can be repeated. The bytes come in blocks of
eight, the lowest byte first; a block is a mix of the bits of a counter that starts at the seed and
goes up in steps of one odd constant.
-/

namespace RoomCrypt.Entropy

/-- Mix the bits of a block so that each depends on all. -/
def mix (z : UInt64) : UInt64 :=
  let z := (z ^^^ (z >>> 30)) * 0xbf58476d1ce4e5b9
  let z := (z ^^^ (z >>> 27)) * 0x94d049bb133111eb
  z ^^^ (z >>> 31)

/-- The block at a place. -/
def block (seed : UInt64) (i : Nat) : UInt64 :=
  mix (seed + (UInt64.ofNat i + 1) * 0x9e3779b97f4a7c15)

/-- The row of bytes of a seed. -/
def ofSeed (seed : UInt64) : Entropy :=
  ⟨fun i => (block seed (i / 8) >>> UInt64.ofNat (8 * (i % 8))).toUInt8, 0⟩

end RoomCrypt.Entropy
