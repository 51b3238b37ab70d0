import Mathlib.Algebra.Group.Nat.Defs
import RoomCrypt.Wire

/-!
# Fields read back

A number below `2 ^ 64` is read from its groups of seven bits, of which there may be more than it needs, and a field
from its number, its wire type and its value, whatever follows it.
-/

namespace RoomCrypt.Wire

/-- A byte keeps a number that fits into it. -/
theorem toNat_byte {n : ℕ} (hn : n < 256) : (UInt8.ofNat n).toNat = n :=
  UInt8.toNat_ofNat_of_lt' hn

/-- A group of seven bits without the top bit ends a number. -/
theorem byte_lt {n : ℕ} (hn : n < 128) : UInt8.ofNat n < 128 := by
  rw [UInt8.lt_iff_toNat_lt, toNat_byte (by omega)]
  exact hn

/-- A number in some groups before the last one, be they needed or not. -/
def groups : ℕ → ℕ → Bytes
  | 0, n => [UInt8.ofNat n]
  | count + 1, n => UInt8.ofNat (n % 128 + 128) :: groups count (n / 128)

/-- A number has seven bits more than what is left of it after a group. -/
theorem div_lt_two_pow_iff {n bits : ℕ} : n / 128 < 2 ^ bits ↔ n < 2 ^ (bits + 7) := by
  rw [Nat.div_lt_iff_lt_mul (by decide), Nat.pow_add]

/-- A number is written in no more groups than some that it fits into. -/
theorem exists_varint_eq_groups {count n : ℕ} (hn : n < 2 ^ (7 * count + 7)) :
    ∃ needed ≤ count, n < 2 ^ (7 * needed + 7) ∧ varint n = groups needed n := by
  induction count generalizing n with
  | zero => exact ⟨0, Nat.le_refl 0, hn, by rw [varint, if_pos (show n < 128 from hn), groups]⟩
  | succ count ih =>
    by_cases hsmall : n < 128
    · exact ⟨0, Nat.zero_le _, hsmall, by rw [varint, if_pos hsmall, groups]⟩
    · obtain ⟨needed, hle, hfits, hneeded⟩ := ih (div_lt_two_pow_iff.mpr hn)
      exact ⟨needed + 1, Nat.succ_le_succ hle, div_lt_two_pow_iff.mp hfits,
        by rw [varint, if_neg hsmall, hneeded, groups]⟩

/-- Numbers are read from groups, if there may be so many; the last one of the longest form holds a single bit. -/
theorem readVarint_groups {limit count n : ℕ} (hcount : count ≤ limit) (hlimit : n < 2 ^ (7 * limit + 1))
    (hn : n < 2 ^ (7 * count + 7)) (rest : Bytes) :
    readVarint (limit + 1) (groups count n ++ rest) = some (n, rest) := by
  induction limit generalizing count n with
  | zero =>
    obtain rfl : count = 0 := Nat.le_zero.mp hcount
    have hbit : ¬ 1 < UInt8.ofNat n := by
      rw [UInt8.lt_iff_toNat_lt, toNat_byte (by omega)]
      exact Nat.not_lt.mpr (Nat.le_of_lt_succ hlimit)
    simp only [groups, List.singleton_append, readVarint, byte_lt hn, if_true, hbit, and_false, if_false]
    rw [toNat_byte (by omega)]
  | succ limit ih =>
    cases count with
    | zero =>
      simp only [groups, List.singleton_append, readVarint, byte_lt hn, if_true, Nat.succ_ne_zero, false_and,
        if_false]
      rw [toNat_byte (by omega)]
    | succ count =>
      have hbyte : ¬ UInt8.ofNat (n % 128 + 128) < 128 := by
        rw [UInt8.lt_iff_toNat_lt, toNat_byte (by omega)]
        exact Nat.not_lt.mpr (Nat.le_add_left 128 _)
      have hrest := ih (Nat.le_of_succ_le_succ hcount) (div_lt_two_pow_iff.mpr hlimit) (div_lt_two_pow_iff.mpr hn)
      simp only [groups, List.cons_append, readVarint, hbyte, if_false, hrest, Option.map_some]
      rw [toNat_byte (by omega)]
      have hsum : n % 128 + 128 - 128 + 128 * (n / 128) = n := by omega
      rw [hsum]

/-- What is read as a number are groups of it. -/
theorem exists_groups {limit n : ℕ} {bytes rest : Bytes} (h : readVarint (limit + 1) bytes = some (n, rest)) :
    n < 2 ^ (7 * limit + 1) ∧ ∃ count ≤ limit, n < 2 ^ (7 * count + 7) ∧ bytes = groups count n ++ rest := by
  induction limit generalizing bytes n with
  | zero =>
    cases bytes with
    | nil => simp [readVarint] at h
    | cons b bytes =>
      simp only [readVarint, true_and, Option.map_none] at h
      split at h
      · next hlast =>
        split at h
        · cases h
        · next hbit =>
          obtain ⟨rfl, rfl⟩ : b.toNat = n ∧ bytes = rest := by simpa using h
          have hsmall : b.toNat ≤ 1 := Nat.le_of_not_lt hbit
          exact ⟨Nat.lt_succ_of_le hsmall, 0, Nat.le_refl 0, hlast, by rw [groups, UInt8.ofNat_toNat]; rfl⟩
      · cases h
  | succ limit ih =>
    cases bytes with
    | nil => simp [readVarint] at h
    | cons b bytes =>
      have hlt := b.toNat_lt
      rw [readVarint] at h
      split at h
      · next hlast =>
        obtain ⟨rfl, rfl⟩ : b.toNat = n ∧ bytes = rest := by simpa using h
        have hbits : 2 ^ 8 ≤ 2 ^ (7 * (limit + 1) + 1) := Nat.pow_le_pow_right (by decide) (by omega)
        exact ⟨Nat.lt_of_lt_of_le hlt hbits, 0, Nat.zero_le _, hlast, by rw [groups, UInt8.ofNat_toNat]; rfl⟩
      · next hmore =>
        simp only [Option.map_eq_some_iff, Prod.exists, Prod.mk.injEq] at h
        obtain ⟨high, rest', hhigh, rfl, rfl⟩ := h
        obtain ⟨hlimit, count, hcount, hn, rfl⟩ := ih hhigh
        have hge : 128 ≤ b.toNat := Nat.le_of_not_lt hmore
        have hdiv : (b.toNat - 128 + 128 * high) / 128 = high := by omega
        have hmod : (b.toNat - 128 + 128 * high) % 128 + 128 = b.toNat := by omega
        refine ⟨div_lt_two_pow_iff.mp (hdiv.symm ▸ hlimit), count + 1, Nat.succ_le_succ hcount,
          div_lt_two_pow_iff.mp (hdiv.symm ▸ hn), ?_⟩
        rw [groups, hdiv, hmod, UInt8.ofNat_toNat]
        rfl

/-- A number is read exactly from groups of it, and it may be in more of them than it needs. -/
theorem varint?_eq_some_iff {n : ℕ} {bytes rest : Bytes} :
    varint? bytes = some (n, rest) ↔
      n < 2 ^ 64 ∧ ∃ count < 10, n < 2 ^ (7 * count + 7) ∧ bytes = groups count n ++ rest := by
  constructor
  · intro h
    obtain ⟨hlimit, count, hcount, hn, hbytes⟩ := exists_groups h
    exact ⟨hlimit, count, Nat.lt_succ_of_le hcount, hn, hbytes⟩
  · rintro ⟨hlimit, count, hcount, hn, rfl⟩
    exact readVarint_groups (Nat.le_of_lt_succ hcount) hlimit hn rest

/-- Numbers below `2 ^ 64` are read from the groups that they need. -/
theorem varint?_varint {n : ℕ} (hn : n < 2 ^ 64) (rest : Bytes) : varint? (varint n ++ rest) = some (n, rest) := by
  have hgroups : n < 2 ^ (7 * 9 + 7) := Nat.lt_trans hn (by decide)
  obtain ⟨needed, hneeded, hfits, hvarint⟩ := exists_varint_eq_groups hgroups
  rw [hvarint]
  exact varint?_eq_some_iff.mpr ⟨hn, needed, Nat.lt_succ_of_le hneeded, hfits, rfl⟩

/-- The number of a field and its wire type are read from what was written of them. -/
theorem key?_varint {number wireType : ℕ} (hnumber : 0 < number) (hsmall : 8 * number + wireType < UInt32.size)
    (hwireType : wireType < 8) (rest : Bytes) :
    key? (varint (8 * number + wireType) ++ rest) = some (number, wireType, rest) := by
  have hlt : 8 * number + wireType < 2 ^ 64 := Nat.lt_trans hsmall (by decide)
  have hdiv : (8 * number + wireType) / 8 = number := by omega
  have hmod : (8 * number + wireType) % 8 = wireType := by omega
  have hbounds : 8 * number + wireType < UInt32.size ∧ 8 ≤ 8 * number + wireType := ⟨hsmall, by omega⟩
  simp [key?, varint?_varint hlt, hbounds, hdiv, hmod]

/-- A field is read, and then what follows it. -/
theorem readFields_cons {fuel number wireType : ℕ} {value : Value} {fields : List Field} {bytes after rest : Bytes}
    (hkey : key? bytes = some (number, wireType, after))
    (hvalue : readValue fuel (maxDepth - 1) number wireType after = some (value, rest))
    (hrest : readFields fuel rest = some fields) :
    readFields (fuel + 1) bytes = some (⟨number, value⟩ :: fields) := by
  cases bytes with
  | nil => cases hkey
  | cons b bytes => simp [readFields, hkey, hvalue, hrest]

/-- A number is read as a field. -/
theorem readFields_numberField {fuel number n : ℕ} (hnumber : 0 < number) (hsmall : 8 * number < UInt32.size)
    (hn : n < 2 ^ 64) {rest : Bytes} {fields : List Field} (hrest : readFields (fuel + 1) rest = some fields) :
    readFields (fuel + 2) (numberField number n ++ rest) = some (⟨number, .number n⟩ :: fields) := by
  have hkey : key? (numberField number n ++ rest) = some (number, 0, varint n ++ rest) := by
    rw [numberField, List.append_assoc]
    exact key?_varint hnumber (show 8 * number + 0 < UInt32.size from hsmall) (by decide) _
  refine readFields_cons hkey ?_ hrest
  simp only [readValue, varint?_varint hn, Option.map_some]

/-- A byte string is read as a field. -/
theorem readFields_bytesField {fuel number : ℕ} (hnumber : 0 < number) (hsmall : 8 * number + 2 < UInt32.size)
    {bytes : Bytes} (hbytes : bytes.length < 2 ^ 64) {rest : Bytes} {fields : List Field}
    (hrest : readFields (fuel + 1) rest = some fields) :
    readFields (fuel + 2) (bytesField number bytes ++ rest) = some (⟨number, .delimited bytes⟩ :: fields) := by
  have hkey : key? (bytesField number bytes ++ rest) =
      some (number, 2, varint bytes.length ++ (bytes ++ rest)) := by
    rw [bytesField, List.append_assoc, List.append_assoc]
    exact key?_varint hnumber hsmall (by decide) _
  refine readFields_cons hkey ?_ hrest
  simp [readValue, varint?_varint hbytes, Bytes.splitAt?_append]

end RoomCrypt.Wire
