import LightClient.Decoder
import LightClient.Script.Opcode

/-!
# Script instructions

An instruction is a push, which keeps the opcode under which its data travelled, or any other opcode
by itself. A push can be spelled in several ways; one is the shortest.
-/

namespace LightClient

/-- One instruction of a script. -/
inductive Instruction where
  /-- Pushes data under one of the push opcodes. -/
  | push (opcode : UInt8) (data : Bytes)
  /-- An opcode that carries no data. -/
  | code (opcode : UInt8)
  deriving DecidableEq

namespace Instruction

/-- Pushes data under the opcode with the shortest encoding. -/
def ofData (data : Bytes) : Instruction :=
  .push (Opcode.shortestPush data.length) data

/-- The opcode. -/
def opcode : Instruction → UInt8
  | .push opcode _ => opcode
  | .code opcode => opcode

/-- The data of a push. -/
def data? : Instruction → Option Bytes
  | .push _ data => some data
  | .code _ => none

/-- Whether the instruction pushes data. -/
def isPush (i : Instruction) : Bool :=
  i.data?.isSome

/-- Whether an opcode can carry so many octets. -/
def fits (opcode : UInt8) (length : Nat) : Bool :=
  match Opcode.payload opcode with
  | .absent => false
  | .direct expected => length = expected
  | .counted width => length >>> (8 * width) = 0

/-- Refuses a push whose opcode cannot carry its data, and a push opcode without data. -/
def check : Instruction → Except Error Unit
  | .push opcode data =>
    if fits opcode data.length then .ok () else .error (.invalidLength opcode.toNat data.length)
  | .code opcode =>
    if Opcode.payload opcode = .absent then .ok () else .error (.invalidLength opcode.toNat 0)

/-- The length field that stands between an opcode and so many octets of data. -/
def lengthField (opcode : UInt8) (length : Nat) : Bytes :=
  match Opcode.payload opcode with
  | .counted width => Bytes.ofNat .little width length
  | _ => []

/-- The instruction as it stands in a script. -/
def bytes : Instruction → Bytes
  | .push opcode data => opcode :: lengthField opcode data.length ++ data
  | .code opcode => [opcode]

/-- The length of the instruction in a script. -/
def size : Instruction → Nat
  | .push opcode data =>
    let field := match Opcode.payload opcode with
      | .counted width => width
      | _ => 0
    1 + field + data.length
  | .code _ => 1

/-- Whether an opcode without data pushes the same: a number from one to sixteen, or minus one. -/
def hasSmallIntegerForm : Bytes → Bool
  | [b] => (1 ≤ b && b ≤ 16) || b = 0x81
  | _ => false

/-- Whether no shorter instruction does the same, by the table of the lengths for which a push opcode
is meant. -/
def isMinimal : Instruction → Bool
  | .push opcode data =>
    if data.length = 0 then opcode = 0x00
    else if hasSmallIntegerForm data then false
    else if data.length ≤ 0x4b then opcode.toNat = data.length
    else if data.length ≤ 0xff then opcode = Opcode.pushData1
    else if data.length ≤ 0xffff then opcode = Opcode.pushData2
    else true
  | .code _ => true

/-- Takes one instruction from the front of a script. -/
def decode : Decoder Instruction := do
  let opcode ← Decoder.byte
  match Opcode.payload opcode with
  | .absent => return .code opcode
  | .direct length => return .push opcode (← Decoder.take length)
  | .counted width =>
    let length ← Decoder.natural .little width
    return .push opcode (← Decoder.take length)

/-- The instruction as people write it: data in hexadecimal, opcodes by name. -/
def assembly : Instruction → String
  | .push opcode data => if opcode = 0x00 then "OP_0" else Hex.encode data
  | .code opcode =>
    match Opcode.name? opcode with
    | some name => name
    | none => "OP_UNKNOWN(0x" ++ Hex.encode [opcode] ++ ")"

end Instruction

end LightClient
