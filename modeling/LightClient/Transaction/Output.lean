import LightClient.Script.Template

/-!
# Outputs

An output is an amount and the script that says who may spend it.
-/

namespace LightClient

/-- An output of a transaction. -/
structure Output where
  /-- The amount, in the smallest unit. -/
  value : UInt64
  scriptPubKey : Script
  deriving DecidableEq

namespace Output

/-- The kind of the output's script. -/
def template (o : Output) : Template :=
  o.scriptPubKey.template

instance : Wire Output where
  size o := 8 + Wire.size o.scriptPubKey
  pieces o := Bytes.ofNat .little 8 o.value.toNat :: Wire.pieces o.scriptPubKey
  decode := do
    let value ← Decoder.uint64
    let scriptPubKey ← Wire.decode
    return ⟨value, scriptPubKey⟩

end Output

end LightClient
