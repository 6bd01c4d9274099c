import LightClient.ChainParams

/-!
# Retargeting

The target of a new period is the previous one times the seconds that the last period took, over the
seconds that it should have taken. The seconds that it took count for no less than a quarter and no
more than four times those that it should have taken, and the target never becomes easier than the
limit of the chain.
-/

namespace LightClient.Target

/-- The seconds between two timestamps, kept between a quarter of `timespan` and four times it. -/
def clampedTimespan (timespan : UInt64) (first second : UInt32) : UInt64 :=
  let expected := timespan.toInt64
  let actual := second.toUInt64.toInt64 - first.toUInt64.toInt64
  (max (expected / 4) (min actual (expected * 4))).toUInt64

/-- The adjusted target before any limit. Twice the width of a target holds every product of a
target with a number of seconds. -/
def scaled (previous : Target) (first second : UInt32) (p : ChainParams) : BitVec 512 :=
  let timespan := p.targetTimespan
  previous.value.setWidth 512 * (clampedTimespan timespan first second).toBitVec.setWidth 512 /
    timespan.toBitVec.setWidth 512

/-- The target of the next period, or an overflow if it would pass the limit. -/
def retargetChecked (previous : Target) (first second : UInt32) (p : ChainParams) :
    Except Error Target := do
  p.validate
  if p.noRetargeting then return previous
  let limit ← p.powLimit.mapError Error.target
  let next := scaled previous first second p
  if limit.value.setWidth 512 < next then throw (.target .overflow)
  return ⟨next.setWidth 256⟩

/-- The target of the next period; where it would pass the limit it is the limit. -/
def retarget (previous : Target) (first second : UInt32) (p : ChainParams) : Except Error Target :=
  match retargetChecked previous first second p with
  | .error (.target .overflow) => p.powLimit.mapError Error.target
  | result => result

/-- The compact target of the next period, from that of the last. -/
def retargetCompact (previousBits first second : UInt32) (p : ChainParams) :
    Except Error UInt32 := do
  let previous ← (ofCompact previousBits).mapError Error.target
  return (← previous.retarget first second p).toCompact

end LightClient.Target
