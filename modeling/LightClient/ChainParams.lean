import LightClient.Target.Basic

/-!
# Chain parameters

The networks differ in the easiest target that they allow and in whether they retarget at all. A
period of blocks should take a known time, by which the target is adjusted.
-/

namespace LightClient

/-- The networks. -/
inductive Network where
  | mainnet
  | testnet
  | regtest
  deriving DecidableEq

/-- The parameters of proof of work. -/
structure ChainParams where
  /-- The easiest target allowed, in compact form. -/
  powLimitBits : UInt32
  /-- The number of blocks in a period. -/
  retargetInterval : UInt64
  /-- The seconds expected between two blocks. -/
  targetSpacing : UInt64
  /-- Whether the target stays what it is. -/
  noRetargeting : Bool
  deriving DecidableEq

namespace ChainParams

/-- The parameters of a network. -/
def forNetwork : Network → ChainParams
  | .mainnet | .testnet => ⟨0x1d00ffff, 2016, 600, false⟩
  | .regtest => ⟨0x207fffff, 2016, 600, true⟩

/-- The seconds that a period should take. -/
def targetTimespan (p : ChainParams) : UInt64 :=
  p.retargetInterval * p.targetSpacing

/-- The easiest target allowed. -/
def powLimit (p : ChainParams) : Except TargetFault Target :=
  Target.ofCompact p.powLimitBits

/-- The longest period for which four times its seconds are still a signed number of 64 bits. -/
def maxTimespan : UInt64 :=
  0x7fffffffffffffff / 4

/-- Refuses parameters with which no target can be computed. -/
def validate (p : ChainParams) : Except Error Unit :=
  if p.retargetInterval = 0 ∨ p.targetSpacing = 0 then
    .error (.invalidConfig .zeroPeriod)
  else if maxTimespan < p.targetTimespan then
    .error (.invalidConfig .timespanTooLarge)
  else match p.powLimit with
    | .error fault => .error (.invalidConfig (.powLimit fault))
    | .ok limit => if limit.isZero then .error (.invalidConfig .zeroPowLimit) else .ok ()

end ChainParams

end LightClient
