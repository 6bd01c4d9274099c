import LightClient.Script.Template
import LightClient.Witness

/-!
# Inputs

An input names the output that it spends and says with what right. Its witness travels apart from
it, behind all outputs, so the wire format of an input leaves the witness out.
-/

namespace LightClient

/-- An output of an earlier transaction, by the transaction's id and the output's position. -/
structure Outpoint where
  txid : Hash256
  index : UInt32
  deriving DecidableEq

namespace Outpoint

/-- The outpoint of an input that spends nothing. -/
def null : Outpoint :=
  ⟨Hash256.zero, 0xffffffff⟩

/-- Whether the outpoint is the one that stands for nothing. -/
def isNull (o : Outpoint) : Bool :=
  o = null

instance : Wire Outpoint where
  size _ := 36
  pieces o := [o.txid.bytes, Bytes.ofNat .little 4 o.index.toNat]
  decode := do
    let txid ← Decoder.hash256
    let index ← Decoder.uint32
    return ⟨txid, index⟩

end Outpoint

/-- Where an input carries the right to spend. -/
inductive InputKind where
  /-- All of it in the script. -/
  | legacy
  /-- In the witness; the script pushes the witness program. -/
  | compatibility
  /-- In the witness; the script is empty. -/
  | witness
  deriving DecidableEq

/-- An input of a transaction. -/
structure Input where
  prevout : Outpoint
  scriptSig : Script
  sequence : UInt32
  witness : Witness
  deriving DecidableEq

namespace Input

/-- The sequence number of an input that shall not be replaced. -/
def finalSequence : UInt32 := 0xffffffff

/-- Whether the input has the final sequence number. -/
def isFinal (i : Input) : Bool :=
  i.sequence = finalSequence

/-- Whether the input announces that it may be replaced by one with a higher fee. -/
def isReplaceable (i : Input) : Bool :=
  i.sequence < 0xfffffffe

/-- The kind of a script in an input: empty, one direct push of a witness program, or anything
else. -/
def kindOf (script : Script) : InputKind :=
  match script.bytes with
  | [] => .witness
  | first :: rest =>
    if rest.length = 22 ∧ first = 22 ∧ Script.template ⟨rest⟩ = .witnessPubKeyHash then
      .compatibility
    else if rest.length = 34 ∧ first = 34 ∧ Script.template ⟨rest⟩ = .witnessScriptHash then
      .compatibility
    else .legacy

/-- Where the input carries the right to spend. -/
def kind (i : Input) : InputKind :=
  kindOf i.scriptSig

/-- The input without its witness. -/
def stripped (i : Input) : Input :=
  { i with witness := .empty }

instance : Wire Input where
  size i := Wire.size i.prevout + Wire.size i.scriptSig + 4
  pieces i :=
    Wire.pieces i.prevout ++ Wire.pieces i.scriptSig ++ [Bytes.ofNat .little 4 i.sequence.toNat]
  decode := do
    let prevout ← Wire.decode
    let scriptSig ← Wire.decode
    let sequence ← Decoder.uint32
    return ⟨prevout, scriptSig, sequence, .empty⟩

/-- Gives witnesses to inputs in order; inputs beyond the last witness keep their own. -/
def attachWitnesses : List Input → List Witness → List Input
  | i :: is, w :: ws => { i with witness := w } :: attachWitnesses is ws
  | is, _ => is

@[simp] theorem length_attachWitnesses (is : List Input) (ws : List Witness) :
    (attachWitnesses is ws).length = is.length := by
  fun_induction attachWitnesses is ws with
  | case1 i is w ws ih => simp [ih]
  | case2 => rfl

end Input

end LightClient
