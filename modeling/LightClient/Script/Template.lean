import LightClient.Script.Basic

/-!
# Standard output scripts

An output script is of a standard kind when its octets match a template: exact lengths and opcodes
at fixed places for the kinds that commit to a digest, a run of keys for multisignature scripts,
and a sequence of pushes behind `OP_RETURN` for scripts that carry data.
-/

namespace LightClient

/-- The kinds of output scripts. -/
inductive Template where
  | pubKeyHash
  | scriptHash
  | witnessPubKeyHash
  | witnessScriptHash
  /-- So many signatures by so many keys. -/
  | multisig (required total : Nat)
  | nullData
  | nonStandard
  deriving DecidableEq

/-- The usual name of a kind. -/
def Template.name : Template → String
  | .pubKeyHash => "pubkeyhash"
  | .scriptHash => "scripthash"
  | .witnessPubKeyHash => "witness_v0_keyhash"
  | .witnessScriptHash => "witness_v0_scripthash"
  | .multisig required total =>
    "multisig(" ++ toString required ++ "-of-" ++ toString total ++ ")"
  | .nullData => "nulldata"
  | .nonStandard => "nonstandard"

/-- A digest to which an output script commits. -/
inductive CommittedHash where
  | hash160 (hash : Hash160)
  | sha256 (hash : FixedBytes 32)
  deriving DecidableEq

/-- The octets of the digest. -/
def CommittedHash.bytes : CommittedHash → Bytes
  | .hash160 hash => hash.bytes
  | .sha256 hash => hash.bytes

namespace Script

open Opcode

/-- Whether a script has this length, starts with `front` and ends with `back`. -/
def hasFrame (s : Script) (length : Nat) (front back : Bytes) : Bool :=
  s.bytes.length = length && s.bytes.take front.length = front &&
    s.bytes.drop (length - back.length) = back

/-- `OP_DUP OP_HASH160 <20 octets> OP_EQUALVERIFY OP_CHECKSIG` -/
def isPayToPubKeyHash (s : Script) : Bool :=
  s.hasFrame 25 [opDup, opHash160, 20] [opEqualVerify, opCheckSig]

/-- `OP_HASH160 <20 octets> OP_EQUAL` -/
def isPayToScriptHash (s : Script) : Bool :=
  s.hasFrame 23 [opHash160, 20] [opEqual]

/-- `OP_0 <20 octets>` -/
def isPayToWitnessPubKeyHash (s : Script) : Bool :=
  s.hasFrame 22 [0, 20] []

/-- `OP_0 <32 octets>` -/
def isPayToWitnessScriptHash (s : Script) : Bool :=
  s.hasFrame 34 [0, 32] []

/-- The most keys that a standard multisignature script may have. -/
def maxMultisigKeys : Nat := 15

/-- The octet at a place, or the place if it is outside. -/
def octetAt (bs : Bytes) (place : Nat) : Except Nat UInt8 :=
  match bs[place]? with
  | some b => .ok b
  | none => .error place

/-- Goes from the length of a key to that of the next one, until a place `stop` is reached or
passed: the last place and the number of keys, for which there is one octet. Nothing is found if
some length is not that of a key. -/
def scanKeys (bs : Bytes) (stop place : Nat) (found : UInt8) :
    Except Nat (Option (Nat × UInt8)) :=
  if place < stop then do
    let length ← octetAt bs place
    if length = 33 ∨ length = 65 then
      scanKeys bs stop (place + 1 + length.toNat) (found + 1)
    else return none
  else return some (place, found)
  termination_by stop - place

/-- The two numbers that the ends of a script say, if these are the ends of a multisignature
script. -/
def ends? (first count last : UInt8) : Option (Nat × Nat) := do
  guard (last = opCheckMultisig)
  let required ← smallInteger? first
  let total ← smallInteger? count
  guard (required ≤ total ∧ total ≤ maxMultisigKeys)
  return (required, total)

/-- How many signatures by how many keys, found by looking at places of the octets only. A place
that is outside is an error. -/
def multisigAt (bs : Bytes) : Except Nat (Option (Nat × Nat)) := do
  if bs.length < 3 then return none
  let last ← octetAt bs (bs.length - 1)
  let first ← octetAt bs 0
  let count ← octetAt bs (bs.length - 2)
  match ends? first count last with
  | none => return none
  | some (required, total) =>
    let scanned ← scanKeys bs (bs.length - 2) 1 0
    return if scanned = some (bs.length - 2, UInt8.ofNat total) then some (required, total)
      else none

/-- How many signatures by how many keys a multisignature script demands:
`OP_m <key> … <key> OP_n OP_CHECKMULTISIG` with `n` keys and `m ≤ n ≤ 15`. -/
def multisig? (s : Script) : Option (Nat × Nat) :=
  match multisigAt s.bytes with
  | .ok numbers => numbers
  | .error _ => none

/-- The instructions behind `OP_RETURN`, if all of them push data or small numbers. -/
def nullDataInstructions? (s : Script) : Option (List Instruction) :=
  match s.bytes with
  | first :: rest =>
    if first = opReturn then
      match instructionsOf rest with
      | .ok is => if is.all (·.opcode ≤ pushSixteen) then some is else none
      | .error _ => none
    else none
  | [] => none

/-- Whether the script only carries data. -/
def isNullData (s : Script) : Bool :=
  s.nullDataInstructions?.isSome

/-- The kind of a script. -/
def template (s : Script) : Template :=
  if s.isPayToPubKeyHash then .pubKeyHash
  else if s.isPayToScriptHash then .scriptHash
  else if s.isPayToWitnessPubKeyHash then .witnessPubKeyHash
  else if s.isPayToWitnessScriptHash then .witnessScriptHash
  else match s.multisig? with
    | some (required, total) => .multisig required total
    | none => if s.isNullData then .nullData else .nonStandard

/-- The octets from `offset` on that a template reserves for a digest. -/
def field (s : Script) (offset width : Nat) : Bytes :=
  (s.bytes.drop offset).take width

/-- The digest to which a script commits. -/
def committedHash (s : Script) : Except Error CommittedHash :=
  if s.isPayToPubKeyHash then
    return .hash160 (← FixedBytes.ofBytes 20 (s.field 3 20))
  else if s.isPayToScriptHash || s.isPayToWitnessPubKeyHash then
    return .hash160 (← FixedBytes.ofBytes 20 (s.field 2 20))
  else if s.isPayToWitnessScriptHash then
    return .sha256 (← FixedBytes.ofBytes 32 (s.field 2 32))
  else throw .notHashScript

/-- The data that a script carries: those of all its pushes, one after the other. -/
def carriedData (s : Script) : Except Error Bytes :=
  match s.nullDataInstructions? with
  | some is => .ok (is.filterMap Instruction.data?).flatten
  | none => .error .notNulldata

end Script

end LightClient
