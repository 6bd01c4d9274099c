import LightClient.ChainParams

/-!
# Configuration

Proofs are made and checked for one network, with parameters of proof of work that are usually
those of the network.
-/

namespace LightClient

/-- Under which rules proofs are made and checked. -/
structure Config where
  network : Network
  params : ChainParams
  /-- Whether a confirming header must meet its own target. -/
  checkHeaderWork : Bool
  deriving DecidableEq

namespace Config

/-- The usual configuration for a network. -/
def forNetwork (network : Network) : Config :=
  ⟨network, .forNetwork network, true⟩

/-- The configuration for tests: work is not checked. -/
def forTesting : Config :=
  { forNetwork .regtest with checkHeaderWork := false }

instance : Inhabited Config :=
  ⟨forNetwork .mainnet⟩

end Config

end LightClient
