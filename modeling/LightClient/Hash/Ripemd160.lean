import LightClient.Bytes

/-!
# RIPEMD-160

The 160-bit hash function in its two parallel lines of eighty steps. A step takes its message word,
rotation and constant from a table; the five round functions appear in opposite order in the two
lines.
-/

namespace LightClient.Ripemd160

/-- The five working words of a line, and the chaining value between blocks. -/
structure State where
  a : UInt32
  b : UInt32
  c : UInt32
  d : UInt32
  e : UInt32

/-- The chaining value before the first block. -/
def initial : State :=
  ⟨0x67452301, 0xefcdab89, 0x98badcfe, 0x10325476, 0xc3d2e1f0⟩

/-- What one step of a line uses: the index of its message word and its rotation. -/
structure Step where
  word : Nat
  rotation : UInt32

/-- Sixteen steps that share a round function and an additive constant. -/
structure Round where
  mix : UInt32 → UInt32 → UInt32 → UInt32
  constant : UInt32
  steps : List Step

/-- Pairs message words with rotations. -/
def steps (words : List Nat) (rotations : List UInt32) : List Step :=
  List.zipWith Step.mk words rotations

/-- Round function one: parity. -/
def mix1 (x y z : UInt32) : UInt32 := x ^^^ y ^^^ z

/-- Round function two: `x` chooses between `y` and `z`. -/
def mix2 (x y z : UInt32) : UInt32 := (x &&& y) ||| ((~~~ x) &&& z)

/-- Round function three. -/
def mix3 (x y z : UInt32) : UInt32 := (x ||| (~~~ y)) ^^^ z

/-- Round function four: `z` chooses between `x` and `y`. -/
def mix4 (x y z : UInt32) : UInt32 := (x &&& z) ||| (y &&& (~~~ z))

/-- Round function five. -/
def mix5 (x y z : UInt32) : UInt32 := x ^^^ (y ||| (~~~ z))

/-- The rounds of the left line. -/
def leftLine : List Round := [
  ⟨mix1, 0x00000000, steps
    [0, 1, 2, 3, 4, 5, 6, 7, 8, 9, 10, 11, 12, 13, 14, 15]
    [11, 14, 15, 12, 5, 8, 7, 9, 11, 13, 14, 15, 6, 7, 9, 8]⟩,
  ⟨mix2, 0x5a827999, steps
    [7, 4, 13, 1, 10, 6, 15, 3, 12, 0, 9, 5, 2, 14, 11, 8]
    [7, 6, 8, 13, 11, 9, 7, 15, 7, 12, 15, 9, 11, 7, 13, 12]⟩,
  ⟨mix3, 0x6ed9eba1, steps
    [3, 10, 14, 4, 9, 15, 8, 1, 2, 7, 0, 6, 13, 11, 5, 12]
    [11, 13, 6, 7, 14, 9, 13, 15, 14, 8, 13, 6, 5, 12, 7, 5]⟩,
  ⟨mix4, 0x8f1bbcdc, steps
    [1, 9, 11, 10, 0, 8, 12, 4, 13, 3, 7, 15, 14, 5, 6, 2]
    [11, 12, 14, 15, 14, 15, 9, 8, 9, 14, 5, 6, 8, 6, 5, 12]⟩,
  ⟨mix5, 0xa953fd4e, steps
    [4, 0, 5, 9, 7, 12, 2, 10, 14, 1, 3, 8, 11, 6, 15, 13]
    [9, 15, 5, 11, 6, 8, 13, 12, 5, 12, 13, 14, 11, 8, 5, 6]⟩]

/-- The rounds of the right line. -/
def rightLine : List Round := [
  ⟨mix5, 0x50a28be6, steps
    [5, 14, 7, 0, 9, 2, 11, 4, 13, 6, 15, 8, 1, 10, 3, 12]
    [8, 9, 9, 11, 13, 15, 15, 5, 7, 7, 8, 11, 14, 14, 12, 6]⟩,
  ⟨mix4, 0x5c4dd124, steps
    [6, 11, 3, 7, 0, 13, 5, 10, 14, 15, 8, 12, 4, 9, 1, 2]
    [9, 13, 15, 7, 12, 8, 9, 11, 7, 7, 12, 7, 6, 15, 13, 11]⟩,
  ⟨mix3, 0x6d703ef3, steps
    [15, 5, 1, 3, 7, 14, 6, 9, 11, 8, 12, 2, 10, 0, 4, 13]
    [9, 7, 15, 11, 8, 6, 6, 14, 12, 13, 5, 14, 13, 13, 7, 5]⟩,
  ⟨mix2, 0x7a6d76e9, steps
    [8, 6, 4, 1, 3, 11, 15, 0, 5, 12, 2, 13, 9, 7, 10, 14]
    [15, 5, 8, 11, 14, 14, 6, 14, 6, 9, 12, 9, 12, 5, 15, 8]⟩,
  ⟨mix1, 0x00000000, steps
    [12, 15, 10, 4, 1, 5, 8, 7, 6, 2, 13, 14, 0, 3, 9, 11]
    [8, 5, 12, 9, 12, 5, 14, 6, 8, 13, 6, 5, 15, 13, 11, 11]⟩]

/-- Rotation of a word to the left. -/
def rotateLeft (x n : UInt32) : UInt32 :=
  x <<< n ||| x >>> (32 - n)

/-- Runs the steps of one round over the sixteen words of a block. -/
def runRound (block : List UInt32) (s : State) (r : Round) : State :=
  r.steps.foldl (fun s step =>
    let sum := s.a + r.mix s.b s.c s.d + block.getD step.word 0 + r.constant
    ⟨s.e, rotateLeft sum step.rotation + s.e, s.b, rotateLeft s.c 10, s.d⟩) s

/-- Absorbs one block of sixteen words into the chaining value. -/
def compress (s : State) (block : List UInt32) : State :=
  let l := leftLine.foldl (runRound block) s
  let r := rightLine.foldl (runRound block) s
  ⟨s.b + l.c + r.d, s.c + l.d + r.e, s.d + l.e + r.a, s.e + l.a + r.b, s.a + l.b + r.c⟩

/-- The bits `1000…` and the message's length in bits that follow a message of `n` octets. -/
def padding (n : Nat) : Bytes :=
  0x80 :: List.replicate ((119 - n % 64) % 64) 0 ++ Bytes.ofNat .little 8 (8 * n)

/-- The little-endian words of a byte string. -/
def words : Bytes → List UInt32
  | a :: b :: c :: d :: rest =>
    (a.toUInt32 ||| b.toUInt32 <<< 8 ||| c.toUInt32 <<< 16 ||| d.toUInt32 <<< 24) :: words rest
  | _ => []

/-- The octets of a word, least significant first. -/
def wordBytes (w : UInt32) : Bytes :=
  [w.toUInt8, (w >>> 8).toUInt8, (w >>> 16).toUInt8, (w >>> 24).toUInt8]

/-- The five words of the chaining value as twenty octets. -/
def State.bytes (s : State) : Bytes :=
  wordBytes s.a ++ wordBytes s.b ++ wordBytes s.c ++ wordBytes s.d ++ wordBytes s.e

@[simp] theorem State.length_bytes (s : State) : s.bytes.length = 20 := rfl

/-- The chaining value after all blocks of the padded message. -/
def absorb (message : Bytes) : State :=
  (Bytes.chunks 64 (message ++ padding message.length)).foldl
    (fun s block => compress s (words block)) initial

/-- The RIPEMD-160 digest of a message. -/
def hash (message : Bytes) : Bytes :=
  (absorb message).bytes

/-- Every digest has twenty octets. -/
@[simp] theorem length_hash (message : Bytes) : (hash message).length = 20 :=
  State.length_bytes _

end LightClient.Ripemd160
