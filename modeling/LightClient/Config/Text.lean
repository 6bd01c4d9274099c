import LightClient.Config.Basic
import LightClient.Json.Document
import LightClient.Json.Record

/-!
# Configurations as JSON

Every field of a configuration may be left out: the network is then the main one, the parameters are
those of the network, and work is checked. A configuration that was read has parameters with which
targets can be computed.
-/

namespace LightClient

/-- A network's name. -/
def Network.name : Network → String
  | .mainnet => "mainnet"
  | .testnet => "testnet"
  | .regtest => "regtest"

/-- The network of a name. -/
def Network.ofName? (name : String) : Option Network :=
  [Network.mainnet, .testnet, .regtest].find? (·.name = name)

/-- A network by its name, which may also be the only name in an object, with nothing to it. -/
def Network.ofJson? : Json → Option Network
  | .string text => text >>= ofName?
  | .object [(name, .null)] => name >>= ofName?
  | _ => none

namespace ChainParams

/-- The names of the parameters, in order. -/
def fieldNames : List String :=
  ["pow_limit_bits", "retarget_interval", "target_spacing", "no_retargeting"]

/-- Parameters from a record that may have other fields. -/
def ofJson? (v : Json) : Option ChainParams := do
  match ← v.allFields? .lenient fieldNames with
  | [bits, interval, spacing, fixed] =>
    return ⟨← bits.uint32?, ← interval.uint64?, ← spacing.uint64?, ← fixed.bool?⟩
  | _ => none

/-- Parameters as a record. -/
def document (p : ChainParams) : Json.Document :=
  .record [
    ("pow_limit_bits", .natural p.powLimitBits.toNat),
    ("retarget_interval", .natural p.retargetInterval.toNat),
    ("target_spacing", .natural p.targetSpacing.toNat),
    ("no_retargeting", .flag p.noRetargeting)]

end ChainParams

namespace Config

/-- The names of the fields, in order. -/
def fieldNames : List String :=
  ["network", "params", "check_header_work"]

/-- A configuration from a record that has no other fields. -/
def ofJson? (v : Json) : Option Config := do
  match ← v.fields? .exact fieldNames with
  | [network, params, check] =>
    let network ← match network with
      | none => some Network.mainnet
      | some name => Network.ofJson? name
    let params ← Json.optional? ChainParams.ofJson? params
    let check ← Json.optional? Json.bool? check
    return ⟨network, params.getD (.forNetwork network), check.getD true⟩
  | _ => none

/-- Reads a configuration with usable parameters. -/
def ofText (text : String) : Except Error Config := do
  let config ← Json.read ofJson? text
  config.params.validate
  return config

/-- A configuration as a record. -/
def document (c : Config) : Json.Document :=
  .record [
    ("network", .text c.network.name),
    ("params", c.params.document),
    ("check_header_work", .flag c.checkHeaderWork)]

/-- Writes a configuration. -/
def toText (c : Config) : String :=
  c.document.render

end Config

end LightClient
