import LightClient.Header.Basic

/-!
# Header chains

A run of raw headers is a chain when each header names the digest of the one before it and meets its
own target. The work in a chain is the sum of its difficulties, capped at the largest number of 256
bits.
-/

namespace LightClient.Header

/-- The largest amount of work that is told apart from more. -/
def maxWork : Nat :=
  (BitVec.allOnes 256).toNat

/-- How far a chain has been checked: the digest of its last header, and its work. -/
structure ChainState where
  last : Option Hash256
  work : Nat
  deriving DecidableEq

/-- Before the first header. -/
def ChainState.start : ChainState :=
  ⟨none, 0⟩

/-- Checks the next header of a chain. -/
def ChainState.extend (state : ChainState) (header : Header) : Except Error ChainState := do
  if state.last.any (· ≠ header.prevBlock) then throw .invalidChain
  let target ← header.target.mapError Error.target
  if target.isMetBy header.hash = false then throw .insufficientWork
  let difficulty ← target.difficulty.mapError Error.target
  return ⟨some header.hash, min (state.work + difficulty) maxWork⟩

/-- Checks the next piece of a byte string of headers. -/
def ChainState.extendRaw (state : ChainState) (piece : Bytes) : Except Error ChainState := do
  state.extend (ofRaw (← RawHeader.ofBytes piece))

/-- The work in a run of concatenated raw headers, if they form a chain. -/
def chainWork (headers : Bytes) : Except Error Nat := do
  if headers.length % 80 ≠ 0 then throw .wrongLengthHeader
  return (← (Bytes.chunks 80 headers).foldlM ChainState.extendRaw .start).work

end LightClient.Header
