import RoomCrypt.Bytes

/-!
# Byte strings as texts

A byte string is read as UTF-8 from the front. Where the bytes of a character stand, it gives that
character, and a byte that starts no character is astray. The bytes of a text give back its
characters, so that nothing is astray in them.
-/

namespace RoomCrypt.Utf8

/-- A part of a byte string that is read as a text. -/
inductive Part where
  | char (c : Char)
  /-- A byte that belongs to no character. -/
  | stray
deriving DecidableEq, Inhabited

/-- The parts of a text: its characters. -/
def ofText (text : String) : List Part :=
  text.toList.map .char

/-- The character at the front of bytes, if there is one. -/
def firstChar? (bytes : Bytes) : Option Char :=
  (bytes.take 4).toByteArray.utf8DecodeChar? 0

/-- The parts of bytes. -/
def parts : Bytes → List Part
  | [] => []
  | b :: rest =>
    match firstChar? (b :: rest) with
    | some c => .char c :: parts (rest.drop (c.utf8Size - 1))
    | none => .stray :: parts rest
termination_by bytes => bytes.length
decreasing_by all_goals simp only [List.length_drop, List.length_cons]; omega

theorem firstChar?_encode_append (c : Char) (rest : Bytes) :
    firstChar? (String.utf8EncodeChar c ++ rest) = some c := by
  have hlength : (String.utf8EncodeChar c).length ≤ 4 := by
    rw [String.length_utf8EncodeChar]
    exact c.utf8Size_le_four
  rw [firstChar?, List.take_append, List.take_of_length_le hlength, List.toByteArray_append]
  exact ByteArray.utf8DecodeChar?_utf8EncodeChar_append

theorem parts_encode_append (c : Char) (rest : Bytes) :
    parts (String.utf8EncodeChar c ++ rest) = .char c :: parts rest := by
  have hfirst := firstChar?_encode_append c rest
  have hlength := String.length_utf8EncodeChar c
  cases hbytes : String.utf8EncodeChar c with
  | nil =>
    have := c.utf8Size_pos
    simp [hbytes] at hlength
    omega
  | cons b others =>
    rw [hbytes, List.cons_append] at hfirst
    rw [hbytes, List.length_cons] at hlength
    rw [List.cons_append, parts, hfirst]
    simp [← hlength]

/-- The bytes of characters are read back as these characters. -/
theorem parts_encode (chars : List Char) :
    parts (chars.flatMap String.utf8EncodeChar) = chars.map .char := by
  induction chars with
  | nil => rw [List.flatMap_nil, List.map_nil, parts]
  | cons c rest ih => rw [List.flatMap_cons, parts_encode_append, ih, List.map_cons]

end RoomCrypt.Utf8
