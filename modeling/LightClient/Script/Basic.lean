import LightClient.Wire
import LightClient.Script.Instruction

/-!
# Scripts

A script is a byte string; only its reading makes instructions of it. The reading goes on to the
first instruction whose data are cut short. Every push keeps its opcode, so instructions compile
back to the bytes from which they were read.
-/

namespace LightClient

/-- A script, as raw octets. -/
structure Script where
  bytes : Bytes
  deriving DecidableEq

namespace Script

instance : Inhabited Script :=
  ⟨⟨[]⟩⟩

/-- One step of reading a script: where it starts, its instruction, and where it stops. -/
structure Step where
  start : Nat
  result : Except Error Instruction
  stop : Nat

/-- At most `fuel` steps of reading. -/
def walk : (fuel : Nat) → Suffix → List Step
  | 0, _ => []
  | fuel + 1, s =>
    if s.bytes.isEmpty then []
    else match Instruction.decode s with
      | .ok i rest => ⟨s.offset, .ok i, rest.offset⟩ :: walk fuel rest
      | .error e rest => [⟨s.offset, .error e, rest.offset⟩]

/-- The steps of reading a byte string as a script; an instruction has at least one octet. -/
def stepsOf (bs : Bytes) : List Step :=
  walk bs.length (.ofData bs 0)

/-- The steps of reading a script, the failing one included. -/
def steps (s : Script) : List Step :=
  stepsOf s.bytes

/-- The instructions of a byte string read as a script. -/
def instructionsOf (bs : Bytes) : Except Error (List Instruction) :=
  (stepsOf bs).mapM Step.result

/-- The instructions of a script, if none is cut short. -/
def instructions (s : Script) : Except Error (List Instruction) :=
  instructionsOf s.bytes

/-- The largest element that may be pushed. -/
def maxElementSize : Nat := 520

/-- The instruction of a step, if it is neither oversized nor longer than needed. -/
def Step.minimalResult (step : Step) : Except Error Instruction := do
  let i ← step.result
  let size := (i.data?.getD []).length
  if maxElementSize < size then throw (.pushTooLarge size)
  if i.isMinimal = false then throw (.nonMinimalPush step.start)
  return i

/-- The instructions of a script in which every push is as short as it can be. -/
def minimalInstructions (s : Script) : Except Error (List Instruction) :=
  s.steps.mapM Step.minimalResult

/-- The script that consists of the given instructions, written into exactly the length that they
announce. -/
def ofInstructions (is : List Instruction) : Except Error Script := do
  is.forM Instruction.check
  return ⟨← Wire.serializePieces (Wire.sumBy Instruction.size is) (is.map Instruction.bytes)⟩

/-- Whether every instruction is a push of data. -/
def isPushOnly (s : Script) : Bool :=
  s.steps.all fun step =>
    match step.result with
    | .ok i => i.isPush
    | .error _ => false

/-- The data of the last push, in a script of pushes only. -/
def redeemScript? (s : Script) : Option Script :=
  if s.isPushOnly then
    match s.steps.getLast? with
    | some ⟨_, .ok (.push _ data), _⟩ => some ⟨data⟩
    | _ => none
  else none

/-- A step of reading as people write it. -/
def Step.assembly (step : Step) : String :=
  match step.result with
  | .ok i => i.assembly
  | .error _ => "[error]"

/-- The script as people write it: its instructions, with blanks between them. -/
def assembly (s : Script) : String :=
  String.intercalate " " (s.steps.map Step.assembly)

/-- The script's octets in hexadecimal. -/
def hex (s : Script) : String :=
  Hex.encode s.bytes

/-- On the wire a script announces its length. -/
instance : Wire Script where
  size s := Wire.varBytesSize s.bytes
  pieces s := Wire.varBytesPieces s.bytes
  decode := do return ⟨← Decoder.varBytes⟩

end Script

end LightClient
