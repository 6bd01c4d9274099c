import LightClient.Bytes

/-!
# Opcodes

The first octet of an instruction. Opcodes up to 78 push data: the octets that follow, in a number
that the opcode itself names or that a length field announces. The others stand alone.
-/

namespace LightClient.Opcode

/-- What follows an opcode in a script. -/
inductive Payload where
  /-- Nothing: the opcode is a whole instruction. -/
  | absent
  /-- As many octets as the opcode says. -/
  | direct (length : Nat)
  /-- A length field of this width, and as many octets as it says. -/
  | counted (width : Nat)
  deriving DecidableEq, Repr

/-- Pushes a length field's worth of data; the field is one octet wide. -/
def pushData1 : UInt8 := 0x4c

/-- Pushes a length field's worth of data; the field is two octets wide. -/
def pushData2 : UInt8 := 0x4d

/-- Pushes a length field's worth of data; the field is four octets wide. -/
def pushData4 : UInt8 := 0x4e

/-- Pushes the number sixteen; no opcode above it pushes anything. -/
def pushSixteen : UInt8 := 0x60

/-- Ends a script without success; what follows it is never run. -/
def opReturn : UInt8 := 0x6a

/-- Duplicates the item on top of the stack. -/
def opDup : UInt8 := 0x76

/-- Compares the two items on top. -/
def opEqual : UInt8 := 0x87

/-- Compares the two items on top, and ends the script unless they are equal. -/
def opEqualVerify : UInt8 := 0x88

/-- Replaces the item on top by its 160-bit digest. -/
def opHash160 : UInt8 := 0xa9

/-- Checks one signature by one key. -/
def opCheckSig : UInt8 := 0xac

/-- Checks several signatures by several keys. -/
def opCheckMultisig : UInt8 := 0xae

/-- What follows an opcode. -/
def payload (opcode : UInt8) : Payload :=
  if opcode < pushData1 then .direct opcode.toNat
  else if opcode = pushData1 then .counted 1
  else if opcode = pushData2 then .counted 2
  else if opcode = pushData4 then .counted 4
  else .absent

/-- The opcode with the shortest encoding for a push of so many octets. -/
def shortestPush (length : Nat) : UInt8 :=
  if length < 0x4c then UInt8.ofNat length
  else if length < 0x100 then pushData1
  else if length < 0x10000 then pushData2
  else pushData4

/-- The number from one to sixteen that an opcode pushes. -/
def smallInteger? (opcode : UInt8) : Option Nat :=
  if 0x51 ≤ opcode ∧ opcode ≤ pushSixteen then some (opcode.toNat - 0x50) else none

/-- The opcode that pushes a number from zero to sixteen. -/
def ofSmallInteger? (n : Nat) : Option UInt8 :=
  if n = 0 then some 0x00
  else if n ≤ 16 then some (UInt8.ofNat (0x50 + n))
  else none

/-- The names of the opcodes from 76 on, without a gap. -/
def nameTable : List String := [
  "OP_PUSHDATA1", "OP_PUSHDATA2", "OP_PUSHDATA4", "OP_1NEGATE", "OP_RESERVED",
  "OP_1", "OP_2", "OP_3", "OP_4", "OP_5", "OP_6", "OP_7", "OP_8",
  "OP_9", "OP_10", "OP_11", "OP_12", "OP_13", "OP_14", "OP_15", "OP_16",
  "OP_NOP", "OP_VER", "OP_IF", "OP_NOTIF", "OP_VERIF", "OP_VERNOTIF", "OP_ELSE", "OP_ENDIF",
  "OP_VERIFY", "OP_RETURN",
  "OP_TOALTSTACK", "OP_FROMALTSTACK", "OP_2DROP", "OP_2DUP", "OP_3DUP", "OP_2OVER", "OP_2ROT",
  "OP_2SWAP", "OP_IFDUP", "OP_DEPTH", "OP_DROP", "OP_DUP", "OP_NIP", "OP_OVER", "OP_PICK",
  "OP_ROLL", "OP_ROT", "OP_SWAP", "OP_TUCK",
  "OP_CAT", "OP_SUBSTR", "OP_LEFT", "OP_RIGHT", "OP_SIZE",
  "OP_INVERT", "OP_AND", "OP_OR", "OP_XOR", "OP_EQUAL", "OP_EQUALVERIFY", "OP_RESERVED1",
  "OP_RESERVED2",
  "OP_1ADD", "OP_1SUB", "OP_2MUL", "OP_2DIV", "OP_NEGATE", "OP_ABS", "OP_NOT", "OP_0NOTEQUAL",
  "OP_ADD", "OP_SUB", "OP_MUL", "OP_DIV", "OP_MOD", "OP_LSHIFT", "OP_RSHIFT", "OP_BOOLAND",
  "OP_BOOLOR", "OP_NUMEQUAL", "OP_NUMEQUALVERIFY", "OP_NUMNOTEQUAL", "OP_LESSTHAN",
  "OP_GREATERTHAN", "OP_LESSTHANOREQUAL", "OP_GREATERTHANOREQUAL", "OP_MIN", "OP_MAX", "OP_WITHIN",
  "OP_RIPEMD160", "OP_SHA1", "OP_SHA256", "OP_HASH160", "OP_HASH256", "OP_CODESEPARATOR",
  "OP_CHECKSIG", "OP_CHECKSIGVERIFY", "OP_CHECKMULTISIG", "OP_CHECKMULTISIGVERIFY",
  "OP_NOP1", "OP_CHECKLOCKTIMEVERIFY", "OP_CHECKSEQUENCEVERIFY", "OP_NOP4", "OP_NOP5", "OP_NOP6",
  "OP_NOP7", "OP_NOP8", "OP_NOP9", "OP_NOP10", "OP_CHECKSIGADD"]

/-- The name of an opcode; direct pushes and unassigned opcodes have none. -/
def name? (opcode : UInt8) : Option String :=
  if opcode = 0x00 then some "OP_0"
  else if opcode < pushData1 then none
  else if opcode = 0xff then some "OP_INVALIDOPCODE"
  else nameTable[opcode.toNat - pushData1.toNat]?

end LightClient.Opcode
