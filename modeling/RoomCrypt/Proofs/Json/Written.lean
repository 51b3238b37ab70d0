import RoomCrypt.Json.Reader
import RoomCrypt.Json.Writer

/-!
# Written values read back

A value that is made of texts, truth values, natural numbers of 64 bits, arrays and objects is read from
what is written of it. A text gives back each of its characters, be it escaped or not, and the digits of
a number end where the number does, because no digit, point or exponent follows them.
-/

namespace RoomCrypt.Json

open Utf8 (Part)

/-- The parts of written characters. -/
abbrev parts (chars : List Char) : List Part :=
  chars.map .char

/-! ## Texts -/

/-- The piece that is read from what is written of a character. Control characters without a short escape
are written as a 16-bit unit. -/
def pieceOf (c : Char) : Piece :=
  if c ≠ '\n' ∧ c ≠ '\r' ∧ c ≠ '\t' ∧ c ≠ '\x08' ∧ c ≠ '\x0c' ∧ c.toNat < 32 then .unit c.toNat
  else .char c

/-- The two digits of a control character give its number. -/
theorem hexUnit?_digits {n : Nat} (h : n < 32) :
    hexUnit? '0' '0' (Hex.digit (n / 16)) (Hex.digit (n % 16)) = some n := by
  revert n
  decide

/-- A character that needs no escape is read as it is. -/
theorem readPieces_char (done : List Piece) {c : Char} (rest : List Part) (hquote : c ≠ '"') (hback : c ≠ '\\')
    (hcontrol : 32 ≤ c.toNat) : readPieces done (.char c :: rest) = readPieces (.char c :: done) rest := by
  rw [readPieces.eq_def]
  split <;> grind

/-- What is written of a character is read as its piece. -/
theorem readPieces_escapeChar (done : List Piece) (c : Char) (rest : List Part) :
    readPieces done (parts (escapeChar c) ++ rest) = readPieces (pieceOf c :: done) rest := by
  unfold escapeChar pieceOf
  by_cases hquote : c = '"'
  · subst hquote; rfl
  by_cases hback : c = '\\'
  · subst hback; rfl
  by_cases hn : c = '\n'
  · subst hn; rfl
  by_cases hr : c = '\r'
  · subst hr; rfl
  by_cases ht : c = '\t'
  · subst ht; rfl
  by_cases hb : c = '\x08'
  · subst hb; rfl
  by_cases hf : c = '\x0c'
  · subst hf; rfl
  by_cases hcontrol : c.toNat < 32
  · simp [hquote, hback, hn, hr, ht, hb, hf, hcontrol, readPieces, hexUnit?_digits hcontrol]
  · simp only [hquote, hback, hn, hr, ht, hb, hf, hcontrol, if_false, and_false]
    exact readPieces_char done rest hquote hback (Nat.not_lt.mp hcontrol)

/-- What is written of characters is read as their pieces, up to the closing quote. -/
theorem readPieces_escaped (done : List Piece) (chars : List Char) (rest : List Part) :
    readPieces done (parts (chars.flatMap escapeChar) ++ .char '"' :: rest) =
      some (done.reverse ++ chars.map pieceOf, rest) := by
  induction chars generalizing done with
  | nil => simp [readPieces]
  | cons c chars ih =>
    rw [List.flatMap_cons, parts, List.map_append, List.append_assoc]
    refine (readPieces_escapeChar done c _).trans ((ih _).trans ?_)
    simp

/-- The piece of a character stands for it, whatever follows. -/
theorem joinPieces_pieceOf (done : List Char) (c : Char) (rest : List Piece) :
    joinPieces done (pieceOf c :: rest) = joinPieces (c :: done) rest := by
  unfold pieceOf
  split
  · next hunit =>
    obtain ⟨-, -, -, -, -, hcontrol⟩ := hunit
    have hlow : c.toNat < 0xd800 ∨ 0xdfff < c.toNat := Or.inl (by omega)
    have hc : Char.ofNat c.toNat = c := Char.ofNat_toNat c
    -- A unit that is no half of a pair is not joined with the piece behind it.
    cases rest with
    | nil => simp only [joinPieces, hlow, if_true, hc]
    | cons piece rest => cases piece <;> simp only [joinPieces, hlow, if_true, hc]
  · rfl

/-- The pieces of characters stand for these characters. -/
theorem joinPieces_map (done chars : List Char) :
    joinPieces done (chars.map pieceOf) = some (done.reverse ++ chars) := by
  induction chars generalizing done with
  | nil => simp [joinPieces]
  | cons c chars ih =>
    rw [List.map_cons, joinPieces_pieceOf, ih]
    simp

/-- A text is read from what is written of it behind its opening quote. -/
theorem readText?_quote (s : String) (rest : List Part) :
    readText? (parts (s.toList.flatMap escapeChar) ++ .char '"' :: rest) = some (some s, rest) := by
  unfold readText?
  rw [readPieces_escaped]
  simp [joinPieces_map]

/-! ## Natural numbers -/

/-- Nothing follows that could belong to a number. -/
def EndsNumber (rest : List Part) : Prop :=
  ∀ c more, rest = .char c :: more → c.isDigit = false ∧ c ≠ '.' ∧ c ≠ 'e' ∧ c ≠ 'E'

/-- Digits are taken up to the end of the number. -/
theorem takeDigits_append {digits : List Char} (hdigits : ∀ c ∈ digits, c.isDigit = true) {rest : List Part}
    (hrest : EndsNumber rest) : takeDigits (parts digits ++ rest) = (digits, rest) := by
  induction digits with
  | nil =>
    change takeDigits rest = ([], rest)
    rw [takeDigits.eq_def]
    split
    · next c more => simp [(hrest c more rfl).1]
    · rfl
  | cons c digits ih =>
    obtain ⟨hc, hdigits⟩ := List.forall_mem_cons.mp hdigits
    simp [takeDigits, hc, ih hdigits]

/-- More digits are appended to what the first ones give. -/
theorem appendDigits_append {n m : Nat} {digits : List Char} (h : appendDigits n digits = (m, 0))
    (more : List Char) : appendDigits n (digits ++ more) = appendDigits m more := by
  induction digits generalizing n with
  | nil =>
    obtain rfl : n = m := congrArg Prod.fst h
    rfl
  | cons c digits ih =>
    simp only [appendDigits, List.cons_append] at h ⊢
    split at h
    · next hfits => rw [if_pos hfits, ih h]
    · cases h

/-- The digits of a number of 64 bits give the number. -/
theorem appendDigits_toDigits {n : Nat} (h : n < UInt64.size) : appendDigits 0 (Nat.toDigits 10 n) = (n, 0) := by
  induction n using Nat.strongRecOn with
  | _ n ih =>
    have hdigit : ∀ d < 10, (Nat.digitChar d).toNat - 48 = d := by decide
    by_cases hsmall : n < 10
    · rw [Nat.toDigits_of_lt_base hsmall]
      simp [appendDigits, hdigit n hsmall, h]
    · have hfront := ih (n / 10) (by omega) (by omega)
      have hlast := hdigit (n % 10) (Nat.mod_lt _ (by decide))
      have hwhole : 10 * (n / 10) + n % 10 = n := Nat.div_add_mod n 10
      rw [Nat.toDigits_of_base_le (by decide) (Nat.not_lt.mp hsmall), appendDigits_append hfront]
      simp [appendDigits, hlast, hwhole, h]

/-- The first digit of a number that is not zero is not zero. -/
theorem toDigits_eq_cons {n : Nat} (h : 0 < n) :
    ∃ d more, 0 < d ∧ d < 10 ∧ Nat.toDigits 10 n = Nat.digitChar d :: more := by
  induction n using Nat.strongRecOn with
  | _ n ih =>
    by_cases hsmall : n < 10
    · exact ⟨n, [], h, hsmall, Nat.toDigits_of_lt_base hsmall⟩
    · obtain ⟨d, more, hpos, hd, hfront⟩ := ih (n / 10) (by omega) (by omega)
      refine ⟨d, more ++ [(n % 10).digitChar], hpos, hd, ?_⟩
      rw [Nat.toDigits_of_base_le (by decide) (Nat.not_lt.mp hsmall), hfront, List.cons_append]

/-- A number begins with a digit, and with a zero only if it is zero. -/
theorem readWhole?_toDigits (n : Nat) {rest : List Part} (hrest : EndsNumber rest) :
    readWhole? (parts (Nat.toDigits 10 n) ++ rest) = some (Nat.toDigits 10 n, rest) := by
  have hdigits : ∀ c ∈ Nat.toDigits 10 n, c.isDigit = true :=
    fun c hc => Nat.isDigit_of_mem_toDigits (by decide) (by decide) hc
  unfold readWhole?
  rw [takeDigits_append hdigits hrest]
  rcases Nat.eq_zero_or_pos n with rfl | hpos
  · rfl
  · obtain ⟨d, more, hd, hten, heq⟩ := toDigits_eq_cons hpos
    have hzero : ∀ d < 10, 0 < d → Nat.digitChar d ≠ '0' := by decide
    have hfirst := hzero d hten hd
    rw [heq]
    split <;> simp_all

/-- What is written of a number begins with a digit. -/
theorem toDigits_first (n : Nat) : ∃ c more, Nat.toDigits 10 n = c :: more ∧ c.isDigit = true := by
  obtain ⟨c, more, heq⟩ := List.exists_cons_of_ne_nil (Nat.toDigits_ne_nil (n := n) (b := 10))
  exact ⟨c, more, heq, Nat.isDigit_of_mem_toDigits (by decide) (by decide) (heq ▸ List.mem_cons_self)⟩

/-- A number is read with its digits, and nothing behind them. -/
theorem readNumeral?_toDigits (n : Nat) {rest : List Part} (hrest : EndsNumber rest) :
    readNumeral? (parts (Nat.toDigits 10 n) ++ rest) = some (⟨false, Nat.toDigits 10 n, none, none⟩, rest) := by
  obtain ⟨c, more, heq, hdigit⟩ := toDigits_first n
  have hsign : c ≠ '-' := fun h => by rw [h] at hdigit; exact absurd hdigit (by decide)
  have hwhole := readWhole?_toDigits n hrest
  have hfraction : readFraction? rest = some (none, rest) := by
    rw [readFraction?.eq_def]
    split
    · next more => exact absurd rfl (hrest '.' more rfl).2.1
    · rfl
  have hexponent : readExponent? rest = some (none, rest) := by
    rw [readExponent?.eq_def]
    split
    · next c more =>
      obtain ⟨-, -, he, hE⟩ := hrest c more rfl
      simp [he, hE]
    · rfl
  unfold readNumeral?
  rw [heq] at hwhole ⊢
  simp_all

/-- A number of 64 bits without point and exponent is a whole number. -/
theorem value_toDigits {n : Nat} (h : n < UInt64.size) :
    Numeral.value ⟨false, Nat.toDigits 10 n, none, none⟩ = .int n := by
  unfold Numeral.value ofDigits?
  simp [appendDigits_toDigits h]

end RoomCrypt.Json
