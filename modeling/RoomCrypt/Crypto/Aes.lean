import RoomCrypt.Bytes

/-!
# AES-256 in CBC mode

The block cipher with 256-bit keys, and chained encryption of whole byte strings with the padding
that fills the last block by bytes naming their own number. Bytes are elements of the field with
256 elements, and the substitution is inversion in that field followed by a bit-linear map.
-/

namespace RoomCrypt.Aes

/-- Multiply a field element by the generator `x`. -/
def double (a : UInt8) : UInt8 :=
  if a &&& 0x80 = 0 then a <<< 1 else a <<< 1 ^^^ 0x1b

/-- The product of two field elements, from the lowest `count` bits of the second. -/
def multiply : Nat → UInt8 → UInt8 → UInt8
  | 0, _, _ => 0
  | count + 1, a, b =>
    (if b &&& 1 = 0 then 0 else a) ^^^ multiply count (double a) (b >>> 1)

/-- The multiplicative inverse of a field element, and zero for zero: the power 254. -/
def inverse (a : UInt8) : UInt8 :=
  let square (a : UInt8) := multiply 8 a a
  let a2 := square a
  let a4 := square a2
  let a8 := square a4
  let a16 := square a8
  let a32 := square a16
  let a64 := square a32
  let a128 := square a64
  [a4, a8, a16, a32, a64, a128].foldl (multiply 8) a2

/-- Rotate the bits of a byte to the left. -/
def rotateLeft (a : UInt8) (n : UInt8) : UInt8 :=
  a <<< n ||| a >>> (8 - n)

/-- The substitution of one byte. -/
def substituteByte (a : UInt8) : UInt8 :=
  let i := inverse a
  i ^^^ rotateLeft i 1 ^^^ rotateLeft i 2 ^^^ rotateLeft i 3 ^^^ rotateLeft i 4 ^^^ 0x63

/-- The inverse substitution of one byte. -/
def restoreByte (a : UInt8) : UInt8 :=
  inverse (rotateLeft a 1 ^^^ rotateLeft a 3 ^^^ rotateLeft a 6 ^^^ 0x05)

/-- The substitution as a table. -/
def substitution : Array UInt8 :=
  Array.ofFn fun i : Fin 256 => substituteByte (UInt8.ofNat i)

/-- The inverse substitution as a table. -/
def restoration : Array UInt8 :=
  Array.ofFn fun i : Fin 256 => restoreByte (UInt8.ofNat i)

/-- Look a byte up in a table. -/
def lookUp (table : Array UInt8) (a : UInt8) : UInt8 :=
  table.getD a.toNat 0

/-- Four bytes: a column of the state or a word of the key schedule. -/
structure Column where
  a : UInt8
  b : UInt8
  c : UInt8
  d : UInt8
deriving Inhabited

namespace Column

/-- Apply a function to each byte. -/
def map (f : UInt8 → UInt8) (w : Column) : Column :=
  ⟨f w.a, f w.b, f w.c, f w.d⟩

/-- Add two columns. -/
def add (v w : Column) : Column :=
  ⟨v.a ^^^ w.a, v.b ^^^ w.b, v.c ^^^ w.c, v.d ^^^ w.d⟩

/-- The column with its bytes moved up by one. -/
def rotate (w : Column) : Column :=
  ⟨w.b, w.c, w.d, w.a⟩

/-- Multiply by the fixed polynomial of the column mixing. -/
def mix (w : Column) : Column :=
  let all := w.a ^^^ w.b ^^^ w.c ^^^ w.d
  ⟨w.a ^^^ all ^^^ double (w.a ^^^ w.b), w.b ^^^ all ^^^ double (w.b ^^^ w.c),
    w.c ^^^ all ^^^ double (w.c ^^^ w.d), w.d ^^^ all ^^^ double (w.d ^^^ w.a)⟩

/-- Multiply by the inverse polynomial of the column mixing. -/
def unmix (w : Column) : Column :=
  let even := double (double (w.a ^^^ w.c))
  let odd := double (double (w.b ^^^ w.d))
  mix ⟨w.a ^^^ even, w.b ^^^ odd, w.c ^^^ even, w.d ^^^ odd⟩

/-- The bytes of a column. -/
def bytes (w : Column) : Bytes :=
  [w.a, w.b, w.c, w.d]

end Column

/-- A block or a round key: four columns. -/
structure Block where
  w : Column
  x : Column
  y : Column
  z : Column
deriving Inhabited

namespace Block

/-- Apply a function to each column. -/
def map (f : Column → Column) (s : Block) : Block :=
  ⟨f s.w, f s.x, f s.y, f s.z⟩

/-- Add two blocks. -/
def add (s t : Block) : Block :=
  ⟨s.w.add t.w, s.x.add t.x, s.y.add t.y, s.z.add t.z⟩

/-- Move row `i` to the left by `i` places. -/
def shiftRows (s : Block) : Block :=
  ⟨⟨s.w.a, s.x.b, s.y.c, s.z.d⟩, ⟨s.x.a, s.y.b, s.z.c, s.w.d⟩,
    ⟨s.y.a, s.z.b, s.w.c, s.x.d⟩, ⟨s.z.a, s.w.b, s.x.c, s.y.d⟩⟩

/-- Move row `i` to the right by `i` places. -/
def unshiftRows (s : Block) : Block :=
  ⟨⟨s.w.a, s.z.b, s.y.c, s.x.d⟩, ⟨s.x.a, s.w.b, s.z.c, s.y.d⟩,
    ⟨s.y.a, s.x.b, s.w.c, s.z.d⟩, ⟨s.z.a, s.y.b, s.x.c, s.w.d⟩⟩

theorem unshiftRows_shiftRows (s : Block) : s.shiftRows.unshiftRows = s := rfl

/-- The 16 bytes of a block, column by column. -/
def bytes (s : Block) : Bytes :=
  s.w.bytes ++ s.x.bytes ++ s.y.bytes ++ s.z.bytes

end Block

/-- The columns written by a byte string; bytes that fill no column are left out. -/
def columns : Bytes → List Column
  | a :: b :: c :: d :: rest => ⟨a, b, c, d⟩ :: columns rest
  | _ => []

/-- The blocks made of a list of columns; columns that fill no block are left out. -/
def blocks : List Column → List Block
  | w :: x :: y :: z :: rest => ⟨w, x, y, z⟩ :: blocks rest
  | _ => []

/-- The next `count` groups of eight words of the key schedule after the group `ws`. -/
def schedule : Nat → UInt8 → List Column → List Column
  | 0, _, ws => ws
  | count + 1, constant, ws =>
    match ws with
    | [w0, w1, w2, w3, w4, w5, w6, w7] =>
      let v0 := (w0.add (w7.rotate.map (lookUp substitution))).add ⟨constant, 0, 0, 0⟩
      let v1 := w1.add v0
      let v2 := w2.add v1
      let v3 := w3.add v2
      let v4 := w4.add (v3.map (lookUp substitution))
      let v5 := w5.add v4
      let v6 := w6.add v5
      let v7 := w7.add v6
      ws ++ schedule count (double constant) [v0, v1, v2, v3, v4, v5, v6, v7]
    | _ => ws

/-- The 15 round keys of a key. -/
def roundKeys (key : Octets 32) : List Block :=
  (blocks (schedule 7 1 (columns key.bytes))).take 15

/-- Encrypt one block with the round keys that are left: all rounds but the last mix columns. -/
def encryptRounds : List Block → Block → Block
  | [], s => s
  | [last], s => ((s.map (·.map (lookUp substitution))).shiftRows).add last
  | key :: keys, s =>
    encryptRounds keys
      ((((s.map (·.map (lookUp substitution))).shiftRows).map Column.mix).add key)

/-- Encrypt one block under the round keys. -/
def encryptBlock (keys : List Block) (s : Block) : Block :=
  encryptRounds (keys.drop 1) (s.add (keys.headD default))

/-- Decrypt one block: the inverse rounds, with the round keys taken from the last one on. -/
def decryptRounds : List Block → Block → Block
  | [], s => s
  | [first], s => s.add first
  | key :: keys, s =>
    decryptRounds keys
      ((((s.add key).map Column.unmix).unshiftRows).map (·.map (lookUp restoration)))

/-- Decrypt one block under the round keys, which are given from the last one on. -/
def decryptBlock (keys : List Block) (s : Block) : Block :=
  decryptRounds (keys.drop 1)
    (((s.add (keys.headD default)).unshiftRows).map (·.map (lookUp restoration)))

/-- Encrypt blocks one after the other, each added to the ciphertext before it. -/
def chainEncrypt (keys : List Block) : Block → List Block → List Block
  | _, [] => []
  | previous, s :: rest =>
    let t := encryptBlock keys (s.add previous)
    t :: chainEncrypt keys t rest

/-- Undo `chainEncrypt`. -/
def chainDecrypt (keys : List Block) : Block → List Block → List Block
  | _, [] => []
  | previous, s :: rest => (decryptBlock keys s).add previous :: chainDecrypt keys s rest

/-- Fill the last block: `n` bytes of value `n`, at least one. -/
def pad (plain : Bytes) : Bytes :=
  let n := 16 - plain.length % 16
  plain ++ List.replicate n (UInt8.ofNat n)

/-- Take the padding off again, if there is a proper one. -/
def unpad? (padded : Bytes) : Option Bytes :=
  match padded.getLast? with
  | none => none
  | some last =>
    let n := last.toNat
    let kept := padded.take (padded.length - n)
    if 0 < n ∧ n ≤ 16 ∧ padded.drop (padded.length - n) = List.replicate n last then some kept
    else none

/-- The first block of an initialisation vector. -/
def firstBlock (iv : Octets 16) : Block :=
  (blocks (columns iv.bytes)).headD default

/-- Encrypt a byte string. -/
def encrypt (key : Octets 32) (iv : Octets 16) (plain : Bytes) : Bytes :=
  (chainEncrypt (roundKeys key) (firstBlock iv) (blocks (columns (pad plain)))).flatMap Block.bytes

/-- Decrypt a byte string; there is no answer for one that is not made of whole blocks or whose
padding is wrong. -/
def decrypt? (key : Octets 32) (iv : Octets 16) (cipher : Bytes) : Option Bytes :=
  if cipher.length % 16 = 0 then
    unpad? ((chainDecrypt (roundKeys key).reverse (firstBlock iv)
      (blocks (columns cipher))).flatMap Block.bytes)
  else none

end RoomCrypt.Aes
