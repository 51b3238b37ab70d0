import Mathlib.Algebra.Group.Nat.Defs
import RoomCrypt.Suite

/-!
# Laws of the primitives

What the results on whole conversations assume of the primitives, each as a property that a suite
has or has not. Nothing here says that a primitive is secure.

The simple suite at the end has all of these laws and is simple enough that runs over it can be
evaluated: its hash is a number in base 257, its key agreement a product and its cipher a shift. A variant of it
has the laws of a key agreement and of a cipher, but one MAC for all messages.
-/

namespace RoomCrypt.Suite

/-- Two sides of a key agreement get the same secret. -/
def Agrees [Suite] : Prop :=
  ∀ ours theirs, agree ours (publicKey theirs) = agree theirs (publicKey ours)

/-- Decryption takes encryption back. -/
def Inverts [Suite] : Prop :=
  ∀ key iv plain, decrypt? key iv (encrypt key iv plain) = some plain

/-- Signatures verify under the key of the seed that they were made with. -/
def Verifies [Suite] : Prop :=
  ∀ seed message, verify (signingKey seed) message (sign seed message) = true

/-- The keys of seeds are points of the curve. -/
def MakesPoints [Suite] : Prop :=
  ∀ seed, isPoint (signingKey seed) = true

/-- A number that depends on all bytes and their order. -/
def blend (bytes : Bytes) : Nat :=
  bytes.foldl (fun n b => (257 * n + b.toNat + 1) % (2 ^ 256 - 189)) 0

/-- The bytes of a text shifted by the hash of a key, after a byte that shows that the key is right. -/
def shift (key : Octets 32) (iv : Octets 16) (plain : Bytes) : Bytes :=
  (1 :: plain).map (· + UInt8.ofNat (blend (key.bytes ++ iv.bytes)))

/-- The text that was shifted. -/
def unshift? (key : Octets 32) (iv : Octets 16) (text : Bytes) : Option Bytes :=
  match text.map (· - UInt8.ofNat (blend (key.bytes ++ iv.bytes))) with
  | 1 :: plain => some plain
  | _ => none

/-- A suite for evaluation. -/
@[reducible] def simple : Suite where
  hmac key message := .ofNatLE 32 (blend (key ++ message))
  digest message := .ofNatLE 32 (blend message)
  encrypt := shift
  decrypt? := unshift?
  publicKey secret := ⟨secret.octets⟩
  agree ours theirs := .ofNatLE 32 (ours.octets.toNatLE * theirs.octets.toNatLE)
  signingKey seed := ⟨seed.octets⟩
  isPoint _ := true
  sign seed message := ⟨.ofNatLE 64 (blend (seed.octets.bytes ++ message))⟩
  verify key message signature := signature.octets = .ofNatLE 64 (blend (key.octets.bytes ++ message))

/-- Shifting back and forth changes nothing. -/
theorem unshift?_shift (key : Octets 32) (iv : Octets 16) (text : Bytes) :
    unshift? key iv (shift key iv text) = some text := by
  simp [unshift?, shift, Function.comp_def]

theorem agrees_simple : @Agrees simple := by
  intro ours theirs
  exact congrArg (Octets.ofNatLE 32) (Nat.mul_comm ours.octets.toNatLE theirs.octets.toNatLE)

theorem inverts_simple : @Inverts simple :=
  unshift?_shift

theorem verifies_simple : @Verifies simple := by
  intro seed message
  exact decide_eq_true rfl

theorem makesPoints_simple : @MakesPoints simple :=
  fun _ => rfl

/-- The simple suite where runs are evaluated. -/
scoped instance Evaluation.suite : Suite := simple

/-- The simple suite with keyed hashes that begin with eight zero bytes, so that all messages have one MAC, and with
a cipher that leaves a text as it is. -/
@[reducible] def oneMac : Suite :=
  { simple with
    hmac := fun key message => .ofNatLE 32 (2 ^ 64 * blend (key ++ message))
    encrypt := fun _ _ plain => plain
    decrypt? := fun _ _ text => some text }

theorem agrees_oneMac : @Agrees oneMac :=
  agrees_simple

theorem inverts_oneMac : @Inverts oneMac :=
  fun _ _ _ => rfl

/-- This suite where runs over it are evaluated. -/
scoped instance OneMac.suite : Suite := oneMac

end RoomCrypt.Suite
