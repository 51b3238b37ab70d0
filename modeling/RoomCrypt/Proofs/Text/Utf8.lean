import RoomCrypt.Json.Reader

/-!
# Encoded texts

The bytes of a text give back its characters. What is read from the bytes is what is read from the text.
-/

namespace RoomCrypt

/-- The bytes from a place on are put behind those that were taken before. -/
theorem toList_loop (bytes : ByteArray) (place : Nat) (front : List UInt8) :
    ByteArray.toList.loop bytes place front = front.reverse ++ bytes.data.toList.drop place := by
  fun_induction ByteArray.toList.loop bytes place front with
  | case1 place front hplace ih =>
    have hlength : place < bytes.data.toList.length := hplace
    have hbyte : bytes.get! place = bytes.data.toList[place] :=
      getElem!_pos bytes.data place hplace
    rw [ih, List.reverse_cons, List.append_assoc, hbyte, List.drop_eq_getElem_cons hlength]
    rfl
  | case2 place front hplace =>
    rw [List.drop_eq_nil_of_le (Nat.le_of_not_lt hplace), List.append_nil]

/-- The bytes of a text are those of its characters. -/
theorem toList_toUTF8 (text : String) : text.toUTF8.toList = text.toList.flatMap String.utf8EncodeChar := by
  have hdata : text.toUTF8.data.toList = text.toList.flatMap String.utf8EncodeChar := by
    have hencoded : text.toUTF8 = (text.toList.flatMap String.utf8EncodeChar).toByteArray :=
      String.utf8Encode_toList.symm
    rw [hencoded, List.data_toByteArray]
  exact (toList_loop _ 0 []).trans hdata

/-- Nothing is astray in the bytes of a text. -/
theorem Utf8.parts_toUTF8 (text : String) : parts text.toUTF8.toList = ofText text := by
  rw [toList_toUTF8, parts_encode]
  rfl

/-- The value of a text is read from its bytes. -/
theorem Json.ofUtf8?_toUTF8 (text : String) : ofUtf8? text.toUTF8.toList = parse? text :=
  congrArg ofParts? (Utf8.parts_toUTF8 text)

end RoomCrypt
