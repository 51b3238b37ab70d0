import RoomCrypt.Backup.RecoveryKey
import RoomCrypt.Proofs.Text.Base58

/-!
# Recovery keys and their texts

A recovery key has one text: a text is accepted for a key exactly if it is the Base58 text of the
key with blank characters put into it. The bytes of a key with the marker and the parity byte have
even parity, and so a text that gets one of these bytes wrong is the text of no key.
-/

namespace RoomCrypt.Backup.RecoveryKey

section Parity

variable {bytes others : Bytes} {key : RecoveryKey}

/-- The parity of a byte string in two parts. -/
theorem parityOf_append (bytes others : Bytes) : parityOf (bytes ++ others) = parityOf bytes ^^^ parityOf others := by
  have hfold (start : UInt8) : others.foldl (· ^^^ ·) start = start ^^^ parityOf others := by
    unfold parityOf
    induction others generalizing start with
    | nil => exact UInt8.xor_zero.symm
    | cons b others ih => rw [List.foldl_cons, List.foldl_cons, ih, ih (0 ^^^ b), UInt8.zero_xor, UInt8.xor_assoc]
  rw [parityOf, List.foldl_append]
  exact hfold _

/-- One byte is its own parity. -/
theorem parityOf_singleton (b : UInt8) : parityOf [b] = b :=
  UInt8.zero_xor

/-- The parity byte makes the parity even. -/
theorem parityOf_framed (key : RecoveryKey) : parityOf key.framed = 0 := by
  rw [framed, parityOf_append, parityOf_singleton, UInt8.xor_self]

/-- The byte strings are equal up to one byte, which they do not share. -/
def DifferInOneByte (bytes others : Bytes) : Prop :=
  ∃ front b other back, b ≠ other ∧ bytes = front ++ b :: back ∧ others = front ++ other :: back

/-- One wrong byte changes the parity. -/
theorem DifferInOneByte.parityOf_ne (h : DifferInOneByte bytes others) : parityOf bytes ≠ parityOf others := by
  obtain ⟨front, b, other, back, hne, rfl, rfl⟩ := h
  rw [← List.singleton_append, ← List.singleton_append (x := other)]
  simp only [parityOf_append, parityOf_singleton, ne_eq, UInt8.xor_right_inj, UInt8.xor_left_inj]
  exact hne

end Parity

section Framing

variable {bytes : Bytes} {key : RecoveryKey}

/-- Two bytes, 32 bytes and the last byte are all of the 35. -/
theorem append_slices (octets : Octets framedSize) : (octets.slice 0 2 (by decide)).bytes ++
    (octets.slice 2 32 (by decide)).bytes ++ [octets.bytes.getLastD 0] = octets.bytes := by
  obtain ⟨bytes, hlength⟩ := octets
  simp only [framedSize, size, Nat.reduceAdd] at hlength
  obtain ⟨first, second, rest, rfl⟩ : ∃ first second rest, bytes = first :: second :: rest := by
    match bytes, hlength with
    | first :: second :: rest, _ => exact ⟨first, second, rest, rfl⟩
  obtain rfl | ⟨middle, last, rfl⟩ := rest.eq_nil_or_concat'
  · cases hlength
  · have hmiddle : middle.length = 32 := by simpa using hlength
    have hlast : (first :: second :: (middle ++ [last])).getLastD 0 = last := by
      rw [← List.cons_append, ← List.cons_append, List.getLastD_concat]
    simp only [Octets.slice, List.drop_zero, List.take_succ_cons, List.take_zero, List.drop_succ_cons, hlast,
      List.take_left' hmiddle]
    rfl

/-- Bytes are accepted for a key exactly if they are the bytes of the key. -/
theorem ofFramed?_eq_ok_iff : ofFramed? bytes = .ok key ↔ bytes = key.framed := by
  constructor
  · intro h
    unfold ofFramed? at h
    split at h
    · cases h
    · next octets hoctets =>
      simp only at h
      split at h
      · cases h
      · next hmarker =>
        split at h
        · cases h
        · next hparity =>
          cases h
          rw [← Octets.bytes_of_ofBytes? hoctets, ← append_slices octets, framed, not_not.mp hparity,
            not_not.mp hmarker]
  · rintro rfl
    have hlength : key.framed.length = framedSize := by simp [framed, framedSize, size]
    have hmarker : (⟨key.framed, hlength⟩ : Octets framedSize).slice 0 2 (by decide) = marker :=
      Octets.ext rfl
    have hsecret : (⟨key.framed, hlength⟩ : Octets framedSize).slice 2 32 (by decide) = key.secret.octets := by
      apply Octets.ext
      simp [Octets.slice, framed, marker]
    have hlast : key.framed.getLastD 0 = parityOf (marker.bytes ++ key.secret.octets.bytes) := by
      simp [framed]
    rw [ofFramed?, Octets.ofBytes?, dif_pos hlength]
    simp only [hmarker, hsecret, hlast, ne_eq, not_true_eq_false, if_false]

end Framing

section Blanks

variable {text : String} {key : RecoveryKey}

/-- The characters of a text that are not blank. -/
def unspaced (text : String) : List Char :=
  text.toList.filter fun c => !isBlank c

/-- A text is accepted for a key exactly if it is read as the bytes of the key, blank characters aside. -/
theorem ofBase58?_eq_ok_iff_decode? : ofBase58? text = .ok key ↔ Base58.decode? (unspaced text) = some key.framed := by
  rw [ofBase58?, ← unspaced]
  split
  · next bytes h => rw [h, ofFramed?_eq_ok_iff, Option.some.injEq]
  · next h => simp [h]

/-- A text is accepted for a key exactly if it is the text of the key, blank characters aside. -/
theorem ofBase58?_eq_ok_iff : ofBase58? text = .ok key ↔ unspaced text = key.toBase58.toList := by
  rw [ofBase58?_eq_ok_iff_decode?, Base58.decode?_eq_some_iff_toList_encode, toBase58, eq_comm]

/-- No sign of Base58 is blank. -/
theorem unspaced_encode (bytes : Bytes) : unspaced (Base58.encode bytes) = (Base58.encode bytes).toList := by
  have halphabet : ∀ c ∈ Base58.alphabet, !isBlank c := List.all_eq_true.mp (by decide +kernel)
  have hwrites := Base58.toList_encode_eq_iff.mp (Eq.refl (Base58.encode bytes).toList)
  exact List.filter_eq_self.mpr fun c hc => halphabet c (hwrites.mem_alphabet c hc)

/-- The pieces of a list make up the list. -/
theorem flatten_pieces {α : Type} (n : ℕ) (l : List α) : (pieces n l).flatten = l := by
  fun_induction pieces n l with
  | case1 => rfl
  | case2 a rest ih => rw [List.flatten_cons, ih, List.cons_append, List.take_append_drop]

/-- A filter that lets nothing of a separator pass leaves of a text what it leaves of its parts. -/
theorem filter_intercalate {α : Type} {p : α → Bool} {separator : List α} (hseparator : separator.filter p = [])
    (parts : List (List α)) : (separator.intercalate parts).filter p = parts.flatten.filter p := by
  induction parts with
  | nil => rfl
  | cons part parts ih =>
    cases parts with
    | nil => simp
    | cons next parts =>
      rw [List.intercalate_cons_cons, List.filter_append, List.filter_append, hseparator, List.append_nil, ih,
        List.flatten_cons (l := part), List.filter_append]

/-- The groups of four signs are the text of the key, blanks aside. -/
theorem unspaced_toDisplayText (key : RecoveryKey) : unspaced key.toDisplayText = key.toBase58.toList := by
  have htext : key.toDisplayText.toList = " ".toList.intercalate (pieces 3 key.toBase58.toList) := by
    have hsame : String.toList ∘ String.ofList = id := funext fun _ => String.toList_ofList
    rw [toDisplayText, String.toList_intercalate, List.map_map, hsame, List.map_id]
  rw [unspaced, htext, filter_intercalate (by decide), flatten_pieces]
  exact unspaced_encode key.framed

end Blanks

/-- Each recovery key has exactly one text, blank characters aside: a text is accepted for a key exactly if it is the
Base58 text of the key once its blank characters are taken out. So the Base58 text and the text in groups of four are
accepted for each key, and no text is accepted whose bytes differ from those of an accepted text in one byte. Base58
is the positional code: a text is read as the byte string that it writes, and the text made for a byte string is the
only one that writes it. -/
theorem accepted_iff_toBase58 :
    (∀ (text : String) (key : RecoveryKey), ofBase58? text = .ok key ↔ unspaced text = key.toBase58.toList) ∧
    (∀ key : RecoveryKey, ofBase58? key.toBase58 = .ok key ∧ ofBase58? key.toDisplayText = .ok key) ∧
    (∀ (accepted text : String) (key : RecoveryKey) (bytes others : Bytes), ofBase58? accepted = .ok key →
      Base58.decode? (unspaced accepted) = some bytes → Base58.decode? (unspaced text) = some others →
        DifferInOneByte bytes others → ∃ error, ofBase58? text = .error error) ∧
    (∀ (text : List Char) (bytes : Bytes), Base58.decode? text = some bytes ↔ Base58.Writes text bytes) ∧
    (∀ (text : List Char) (bytes : Bytes), (Base58.encode bytes).toList = text ↔ Base58.Writes text bytes) := by
  refine ⟨fun text key => ofBase58?_eq_ok_iff, fun key => ⟨?_, ?_⟩, ?_, fun text bytes => Base58.decode?_eq_some_iff,
    fun text bytes => Base58.toList_encode_eq_iff⟩
  · exact ofBase58?_eq_ok_iff.mpr (unspaced_encode key.framed)
  · exact ofBase58?_eq_ok_iff.mpr (unspaced_toDisplayText key)
  · intro accepted text key bytes others haccepted hbytes hothers hdiffer
    cases htext : ofBase58? text with
    | error error => exact ⟨error, rfl⟩
    | ok other =>
      have hframed := ofBase58?_eq_ok_iff_decode?.mp haccepted
      have hframed' := ofBase58?_eq_ok_iff_decode?.mp htext
      obtain rfl := Option.some.inj (hbytes.symm.trans hframed)
      obtain rfl := Option.some.inj (hothers.symm.trans hframed')
      exact absurd ((parityOf_framed key).trans (parityOf_framed other).symm) hdiffer.parityOf_ne

/-- The key of the bytes from 0 to 31 is read from its text in groups of four, and not from the text with another
byte in place of the third byte of the secret. -/
theorem accepted_iff_toBase58_counting :
    let key : RecoveryKey := ⟨⟨⟨(List.range 32).map UInt8.ofNat, rfl⟩⟩⟩
    let others := marker.bytes ++ [0, 1, 0xff] ++ key.framed.drop 5
    ofBase58? key.toDisplayText = .ok key ∧ DifferInOneByte key.framed others ∧
      ∃ error, ofBase58? (Base58.encode others) = .error error := by
  intro key others
  have hdiffer : DifferInOneByte key.framed others :=
    ⟨marker.bytes ++ [0, 1], 2, 0xff, key.framed.drop 5, by decide, by decide +kernel, by decide +kernel⟩
  have haccepted := (accepted_iff_toBase58.2.1 key).2
  have hothers : Base58.decode? (unspaced (Base58.encode others)) = some others := by
    rw [unspaced_encode]
    exact Base58.decode?_eq_some_iff_toList_encode.mpr rfl
  exact ⟨haccepted, hdiffer, accepted_iff_toBase58.2.2.1 key.toDisplayText (Base58.encode others) key key.framed others
    haccepted (ofBase58?_eq_ok_iff_decode?.mp haccepted) hothers hdiffer⟩

end RoomCrypt.Backup.RecoveryKey
