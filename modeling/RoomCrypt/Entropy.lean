import RoomCrypt.Bytes

/-!
# Random bytes

Randomness is a value: an endless row of bytes, of which a first part has been used up. Whoever
needs fresh bytes takes the next ones and passes the rest on.
-/

namespace RoomCrypt

/-- An endless row of random bytes. -/
structure Entropy where
  /-- The byte at each place. -/
  byte : Nat → UInt8
  /-- The place of the next byte to be used. -/
  position : Nat

namespace Entropy

instance : Inhabited Entropy := ⟨⟨fun _ => 0, 0⟩⟩

/-- The next `n` bytes. -/
def peek (entropy : Entropy) (n : Nat) : Octets n :=
  ⟨(List.range n).map fun i => entropy.byte (entropy.position + i), by simp⟩

/-- Pass over `n` bytes. -/
def skip (entropy : Entropy) (n : Nat) : Entropy :=
  { entropy with position := entropy.position + n }

/-- Take the next `n` bytes. -/
def draw (entropy : Entropy) (n : Nat) : Octets n × Entropy :=
  (entropy.peek n, entropy.skip n)

/-- Put bytes in front of those that are left. -/
def prepend (bytes : Bytes) (entropy : Entropy) : Entropy :=
  ⟨fun i =>
    match bytes[i]? with
    | some b => b
    | none => entropy.byte (entropy.position + (i - bytes.length)), 0⟩

end Entropy

end RoomCrypt
