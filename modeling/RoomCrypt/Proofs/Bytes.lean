import Mathlib.Algebra.Group.Nat.Defs
import RoomCrypt.Bytes

/-!
# Byte strings taken apart and put together

A first part of fixed length is split off a byte string exactly if the string is that part and the
rest, and 32-bit numbers and their four bytes stand for each other.
-/

namespace RoomCrypt

namespace Bytes

/-- A first part is split off exactly if it is there and has the length that was asked for. -/
theorem splitAt?_eq_some_iff {count : ℕ} {bytes taken rest : Bytes} :
    splitAt? count bytes = some (taken, rest) ↔ bytes = taken ++ rest ∧ taken.length = count := by
  constructor
  · exact append_of_splitAt?
  · rintro ⟨rfl, rfl⟩
    exact splitAt?_append taken rest

end Bytes

/-- The same for a part whose type has its length. -/
theorem Octets.splitAt?_eq_some_iff {n : ℕ} {bytes rest : Bytes} {taken : Octets n} :
    splitAt? n bytes = some (taken, rest) ↔ bytes = taken.bytes ++ rest := by
  unfold splitAt?
  split
  · next first others h =>
    obtain ⟨rfl, hlength⟩ := Bytes.append_of_splitAt? h
    rw [Option.some.injEq, Prod.mk.injEq]
    constructor
    · rintro ⟨rfl, rfl⟩
      rfl
    · intro heq
      obtain ⟨hfirst, hothers⟩ := List.append_inj heq (hlength.trans taken.length_eq.symm)
      exact ⟨Octets.ext hfirst, hothers⟩
  · next h =>
    have hshort := Bytes.splitAt?_eq_none_iff.mp h
    constructor
    · nofun
    · rintro rfl
      rw [List.length_append, taken.length_eq] at hshort
      exact absurd hshort (Nat.not_lt.mpr (Nat.le_add_right n rest.length))

/-- And splitting fails exactly when there are too few bytes. -/
theorem Octets.splitAt?_eq_none_iff {n : ℕ} {bytes : Bytes} : splitAt? n bytes = none ↔ bytes.length < n := by
  rw [← Bytes.splitAt?_eq_none_iff]
  unfold splitAt?
  split
  · next h => simp [h]
  · next h => simp [h]

/-- One more byte makes a number of 24 bits one of 32. -/
theorem toNat_shiftLeft_or {n : UInt32} (hn : n.toNat < 2 ^ 24) (b : UInt8) :
    (n <<< 8 ||| b.toUInt32).toNat = 256 * n.toNat + b.toNat := by
  have hb := b.toNat_lt
  have hshift : (n <<< 8).toNat = 2 ^ 8 * n.toNat := by
    rw [UInt32.toNat_shiftLeft, Nat.shiftLeft_eq]
    change n.toNat * 2 ^ 8 % 2 ^ 32 = _
    omega
  rw [UInt32.toNat_or, hshift, UInt8.toNat_toUInt32, ← Nat.two_pow_add_eq_or_of_lt hb]

/-- Four bytes are the digits of the number that is read from them, highest first. -/
theorem toNat_toUInt32 (a b c d : UInt8) : (⟨[a, b, c, d], rfl⟩ : Octets 4).toUInt32.toNat =
    256 * (256 * (256 * a.toNat + b.toNat) + c.toNat) + d.toNat := by
  have ha := a.toNat_lt
  have hb := b.toNat_lt
  have hc := c.toNat_lt
  have hzero : (0 : UInt32).toNat = 0 := rfl
  have hfirst := toNat_shiftLeft_or (n := 0) (by decide) a
  rw [hzero] at hfirst
  have hsecond := toNat_shiftLeft_or (n := (0 : UInt32) <<< 8 ||| a.toUInt32) (by omega) b
  have hthird := toNat_shiftLeft_or (n := ((0 : UInt32) <<< 8 ||| a.toUInt32) <<< 8 ||| b.toUInt32) (by omega) c
  simp only [Octets.toUInt32, List.foldl_cons, List.foldl_nil]
  rw [toNat_shiftLeft_or (by omega), hthird, hsecond, hfirst]
  omega

/-- The bytes of a number are its digits, highest first. -/
theorem toNat_shiftRight_byte (n : UInt32) :
    (n >>> 24).toUInt8.toNat = n.toNat / 2 ^ 24 ∧ (n >>> 16).toUInt8.toNat = n.toNat / 2 ^ 16 % 256 ∧
      (n >>> 8).toUInt8.toNat = n.toNat / 2 ^ 8 % 256 ∧ n.toUInt8.toNat = n.toNat % 256 := by
  have hn := n.toNat_lt
  have hbyte (shift : UInt32) : (n >>> shift).toUInt8.toNat = n.toNat / 2 ^ (shift.toNat % 32) % 256 := by
    rw [UInt32.toNat_toUInt8, UInt32.toNat_shiftRight, Nat.shiftRight_eq_div_pow]
  refine ⟨?_, hbyte 16, hbyte 8, UInt32.toNat_toUInt8 n⟩
  rw [hbyte 24]
  change n.toNat / 2 ^ 24 % 256 = _
  omega

/-- A number is read from its four bytes. -/
theorem toUInt32_ofUInt32 (n : UInt32) : (⟨Bytes.ofUInt32 n, rfl⟩ : Octets 4).toUInt32 = n := by
  obtain ⟨h24, h16, h8, h0⟩ := toNat_shiftRight_byte n
  apply UInt32.toNat_inj.mp
  refine (toNat_toUInt32 _ _ _ _).trans ?_
  rw [h24, h16, h8, h0]
  omega

/-- Four bytes are those of the number that is read from them. -/
theorem ofUInt32_toUInt32 (octets : Octets 4) : Bytes.ofUInt32 octets.toUInt32 = octets.bytes := by
  obtain ⟨bytes, hlength⟩ := octets
  obtain ⟨a, b, c, d, rfl⟩ : ∃ a b c d, bytes = [a, b, c, d] := by
    match bytes, hlength with
    | [a, b, c, d], _ => exact ⟨a, b, c, d, rfl⟩
  have ha := a.toNat_lt
  have hb := b.toNat_lt
  have hc := c.toNat_lt
  have hd := d.toNat_lt
  have hvalue := toNat_toUInt32 a b c d
  generalize (⟨[a, b, c, d], rfl⟩ : Octets 4).toUInt32 = n at hvalue
  obtain ⟨h24, h16, h8, h0⟩ := toNat_shiftRight_byte n
  simp only [Bytes.ofUInt32, List.cons.injEq, and_true, ← UInt8.toNat_inj, h24, h16, h8, h0]
  omega

end RoomCrypt
