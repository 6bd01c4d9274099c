import LightClient.Error

/-!
# Proof-of-work targets

A header's digest, read as a number, must not exceed the header's target. Headers carry the target
in a compact form of four octets: a length in octets and the three leading octets of the value,
the first bit of which is a sign. The difficulty of a target says how many times harder it is to
meet than the easiest target that the compact form `1d00ffff` stands for.
-/

namespace LightClient

/-- A target, as a number of 256 bits. -/
structure Target where
  value : BitVec 256
  deriving DecidableEq

namespace Target

/-- The target as a natural number. -/
def toNat (t : Target) : Nat :=
  t.value.toNat

/-- A natural number as a target; bits beyond the 256th are dropped. -/
def ofNat (n : Nat) : Target :=
  ⟨BitVec.ofNat 256 n⟩

/-- Whether no digest but zero meets the target. -/
def isZero (t : Target) : Bool :=
  t.value = 0

/-- The target of difficulty one. -/
def difficultyOne : Target :=
  ⟨0xffff#256 <<< 208⟩

/-- The target that a compact form stands for. The octets of the mantissa must stay within 32
octets, which depends on how many of them there are. -/
def ofCompact (bits : UInt32) : Except TargetFault Target :=
  let exponent := (bits >>> 24).toNat
  let mantissa := (bits &&& 0x007fffff).toNat
  if mantissa ≠ 0 ∧ bits &&& 0x00800000 ≠ 0 then .error .negative
  else if mantissa ≠ 0 ∧
      (34 < exponent ∨ (0xff < mantissa ∧ 33 < exponent) ∨ (0xffff < mantissa ∧ 32 < exponent)) then
    .error .overflow
  else if exponent ≤ 3 then
    .ok ⟨BitVec.ofNat 256 (mantissa >>> (8 * (3 - exponent)))⟩
  else
    .ok ⟨BitVec.ofNat 256 mantissa <<< (8 * (exponent - 3))⟩

/-- The number of bits up to the highest that is set. -/
def bitLength (n : Nat) : Nat :=
  if n = 0 then 0 else n.log2 + 1

/-- The compact form. Only the three leading octets survive, or two where the third would set the
sign. -/
def toCompact (t : Target) : UInt32 :=
  let size := (bitLength t.toNat + 7) / 8
  let leading :=
    if size ≤ 3 then t.toNat <<< (8 * (3 - size)) else t.toNat >>> (8 * (size - 3))
  if leading < 0x00800000 then UInt32.ofNat (size <<< 24 + leading)
  else UInt32.ofNat ((size + 1) <<< 24 + leading >>> 8)

/-- Whether a header's digest satisfies the target. -/
def isMetBy (t : Target) (hash : Hash256) : Bool :=
  hash.toNat ≤ t.toNat

/-- The difficulty of the target, rounded down. -/
def difficulty (t : Target) : Except TargetFault Nat :=
  if t.isZero then .error .zero else .ok (difficultyOne.toNat / t.toNat)

/-- The `i`-th group of 64 bits, the lowest being the first. -/
def limb (t : Target) (i : Nat) : UInt64 :=
  UInt64.ofNat (t.toNat >>> (64 * i))

/-- The target in floating point, by groups of 64 bits from the highest down. -/
def toFloat (t : Target) : Float :=
  [3, 2, 1, 0].foldl (fun acc i => acc * 18446744073709551616.0 + (t.limb i).toFloat) 0.0

/-- The difficulty of the target in floating point. -/
def difficultyFloat (t : Target) : Except TargetFault Float :=
  if t.isZero then .error .zero else .ok (difficultyOne.toFloat / t.toFloat)

/-- The target's 64 hexadecimal digits. -/
def hex (t : Target) : String :=
  Hex.ofNatPadded 64 t.toNat

/-- The target as it appears in diagnostics. -/
def debug (t : Target) : String :=
  "Target(0x" ++ t.hex ++ ")"

/-- The difficulty of a compact form. -/
def difficultyOfCompact (bits : UInt32) : Except TargetFault Nat := do
  (← ofCompact bits).difficulty

end Target

end LightClient
