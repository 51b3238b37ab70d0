/-!
# Byte strings

A byte string is a list of bytes, and `Octets n` is a byte string of exactly `n` bytes. Keys, MACs,
signatures and ratchet parts have a fixed length, which their type carries, so that no operation on
them has to check it again.

Numbers are read and written in both byte orders. Each writer comes with the length of what it
writes.
-/

namespace RoomCrypt

/-- A byte string. -/
abbrev Bytes := List UInt8

namespace Bytes

/-- The number whose little-endian digits in base 256 are the given bytes. -/
def toNatLE : Bytes → Nat
  | [] => 0
  | b :: rest => b.toNat + 256 * toNatLE rest

/-- The number whose big-endian digits in base 256 are the given bytes. -/
def toNatBE (bytes : Bytes) : Nat :=
  bytes.foldl (fun n b => 256 * n + b.toNat) 0

/-- The `count` lowest digits of `n` in base 256, lowest first. -/
def ofNatLE : Nat → Nat → Bytes
  | 0, _ => []
  | count + 1, n => UInt8.ofNat (n % 256) :: ofNatLE count (n / 256)

@[simp] theorem length_ofNatLE (count n : Nat) : (ofNatLE count n).length = count := by
  induction count generalizing n with
  | zero => rfl
  | succ count ih => simp [ofNatLE, ih]

/-- The `count` lowest digits of `n` in base 256, highest first. -/
def ofNatBE (count n : Nat) : Bytes :=
  (ofNatLE count n).reverse

@[simp] theorem length_ofNatBE (count n : Nat) : (ofNatBE count n).length = count := by
  simp [ofNatBE]

/-- Are there fewer than `count` bytes? It looks at no more bytes than that. -/
def isShorter : Bytes → Nat → Bool
  | _, 0 => false
  | [], _ + 1 => true
  | _ :: rest, count + 1 => isShorter rest count

@[simp] theorem isShorter_iff {bytes : Bytes} {count : Nat} :
    isShorter bytes count = true ↔ bytes.length < count := by
  induction bytes generalizing count with
  | nil => cases count <;> simp [isShorter]
  | cons b rest ih => cases count <;> simp [isShorter, ih]

/-- Split off the first `count` bytes, if there are so many. -/
def splitAt? : Nat → Bytes → Option (Bytes × Bytes)
  | 0, rest => some ([], rest)
  | _ + 1, [] => none
  | count + 1, b :: rest => (splitAt? count rest).map fun (taken, rest) => (b :: taken, rest)

theorem splitAt?_append (taken rest : Bytes) :
    splitAt? taken.length (taken ++ rest) = some (taken, rest) := by
  induction taken with
  | nil => rfl
  | cons b taken ih => simp [splitAt?, ih]

theorem append_of_splitAt? {count : Nat} {bytes taken rest : Bytes}
    (h : splitAt? count bytes = some (taken, rest)) :
    bytes = taken ++ rest ∧ taken.length = count := by
  induction count generalizing bytes taken with
  | zero => simp_all [splitAt?]
  | succ count ih =>
    cases bytes with
    | nil => simp [splitAt?] at h
    | cons b bytes =>
      simp only [splitAt?, Option.map_eq_some_iff, Prod.mk.injEq, Prod.exists] at h
      obtain ⟨taken', rest', h, rfl, rfl⟩ := h
      obtain ⟨rfl, rfl⟩ := ih h
      simp

/-- Splitting fails exactly when there are too few bytes. -/
theorem splitAt?_eq_none_iff {count : Nat} {bytes : Bytes} :
    splitAt? count bytes = none ↔ bytes.length < count := by
  induction count generalizing bytes with
  | zero => simp [splitAt?]
  | succ count ih =>
    cases bytes with
    | nil => simp [splitAt?]
    | cons b bytes => simp [splitAt?, ih]

end Bytes

/-- A byte string of exactly `n` bytes. -/
structure Octets (n : Nat) where
  /-- The bytes themselves. -/
  bytes : Bytes
  /-- There are exactly `n` of them. -/
  length_eq : bytes.length = n
deriving DecidableEq

namespace Octets

@[simp] theorem length_bytes {n : Nat} (octets : Octets n) : octets.bytes.length = n :=
  octets.length_eq

@[ext] theorem ext {n : Nat} {a b : Octets n} (h : a.bytes = b.bytes) : a = b := by
  cases a; cases b; simp_all

/-- The byte string as one of fixed length, if it has that length. -/
def ofBytes? (n : Nat) (bytes : Bytes) : Option (Octets n) :=
  if h : bytes.length = n then some ⟨bytes, h⟩ else none

@[simp] theorem ofBytes?_bytes {n : Nat} (octets : Octets n) :
    ofBytes? n octets.bytes = some octets := by
  simp [ofBytes?]

theorem bytes_of_ofBytes? {n : Nat} {bytes : Bytes} {octets : Octets n}
    (h : ofBytes? n bytes = some octets) : octets.bytes = bytes := by
  unfold ofBytes? at h
  split at h
  · cases h; rfl
  · cases h

/-- All bytes zero. -/
def zero (n : Nat) : Octets n :=
  ⟨List.replicate n 0, by simp⟩

instance (n : Nat) : Inhabited (Octets n) := ⟨zero n⟩

/-- Split off the first `count` bytes, if there are so many. -/
def splitAt? (count : Nat) (bytes : Bytes) : Option (Octets count × Bytes) :=
  match h : Bytes.splitAt? count bytes with
  | some (taken, rest) => some (⟨taken, (Bytes.append_of_splitAt? h).2⟩, rest)
  | none => none

/-- The `count` bytes from position `start` on; the type holds the proof that they are there. -/
def slice {n : Nat} (octets : Octets n) (start count : Nat) (h : start + count ≤ n) :
    Octets count :=
  ⟨(octets.bytes.drop start).take count, by simp [octets.length_eq]; omega⟩

/-- The first 32 of 64 bytes, and the last 32. -/
def halves (octets : Octets 64) : Octets 32 × Octets 32 :=
  (octets.slice 0 32 (by decide), octets.slice 32 32 (by decide))

/-- One byte string of fixed length after another. -/
def append {m n : Nat} (a : Octets m) (b : Octets n) : Octets (m + n) :=
  ⟨a.bytes ++ b.bytes, by simp⟩

/-- The `n` lowest digits of a number in base 256, lowest first. -/
def ofNatLE (n value : Nat) : Octets n :=
  ⟨Bytes.ofNatLE n value, by simp⟩

/-- The number written by the bytes, lowest digit first. -/
def toNatLE {n : Nat} (octets : Octets n) : Nat :=
  octets.bytes.toNatLE

end Octets

/-- The four bytes of a 32-bit number, highest first. -/
def Bytes.ofUInt32 (n : UInt32) : Bytes :=
  [(n >>> 24).toUInt8, (n >>> 16).toUInt8, (n >>> 8).toUInt8, n.toUInt8]

@[simp] theorem Bytes.length_ofUInt32 (n : UInt32) : (Bytes.ofUInt32 n).length = 4 := rfl

/-- The 32-bit number with the given four bytes, highest first. -/
def Octets.toUInt32 (octets : Octets 4) : UInt32 :=
  octets.bytes.foldl (fun n b => n <<< 8 ||| b.toUInt32) 0

end RoomCrypt
