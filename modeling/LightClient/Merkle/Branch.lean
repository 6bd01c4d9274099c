import LightClient.Digest.Text
import LightClient.Merkle.Root

/-!
# Merkle branches

A branch holds the siblings on the way from a leaf to the root, and the leaf's index. The bits of
the index, least significant first, say on which side each sibling stands. Folding the siblings
over the leaf gives the root that the branch implies.
-/

namespace LightClient.Merkle

/-- The siblings on the way up from a leaf. -/
structure Branch where
  /-- The siblings, from the leaf's level upwards. -/
  nodes : List Hash256
  /-- The position of the leaf. -/
  index : UInt64
  deriving DecidableEq

namespace Branch

/-- The number of levels below the root. -/
def depth (b : Branch) : Nat :=
  b.nodes.length

/-- The siblings one after the other, in wire order. -/
def bytes (b : Branch) : Bytes :=
  b.nodes.flatMap FixedBytes.bytes

/-- A branch from its siblings one after the other. -/
def ofBytes (bs : Bytes) (index : UInt64) : Except Error Branch := do
  if bs.length % 32 ≠ 0 then throw (.malformedBranch (.partialNode bs.length))
  let nodes ← (Bytes.chunks 32 bs).mapM Hash256.ofBytes
  return ⟨nodes, index⟩

/-- Reads the siblings from hexadecimal text. -/
def ofHex (text : String) (index : UInt64) : Except Error Branch := do
  ofBytes (← Bytes.ofHex text) index

/-- Climbs from a node at `index` past its siblings. -/
def climb : List Hash256 → (index : Nat) → Hash256 → Hash256
  | [], _, current => current
  | sibling :: above, index, current =>
    climb above (index / 2)
      (if index % 2 = 0 then node current sibling else node sibling current)

/-- The root that the branch implies for a leaf. The index must fit the depth. -/
def impliedRoot (b : Branch) (leaf : Hash256) : Except Error Hash256 :=
  let index := b.index.toNat
  if b.nodes = [] ∧ index ≠ 0 then
    .error (.malformedBranch .emptyForNonzeroIndex)
  else if index >>> b.depth ≠ 0 then
    .error (.malformedBranch (.indexTooWide index b.depth))
  else .ok (climb b.nodes index leaf)

/-- Whether the branch leads from a leaf to a root. -/
def verifies (b : Branch) (leaf root : Hash256) : Except Error Bool := do
  return (← b.impliedRoot leaf) = root

end Branch

/-- The position of the node that is paired with the one at `index`, in a level of the given width;
a last node without partner is its own. -/
def siblingIndex (index width : Nat) : Nat :=
  min (if index % 2 = 0 then index + 1 else index - 1) (width - 1)

/-- The siblings above the node at `index` of a level. -/
def siblings (level : List Hash256) (index : Nat) : List Hash256 :=
  match level with
  | a :: b :: rest =>
    (a :: b :: rest).getD (siblingIndex index (rest.length + 2)) a ::
      siblings (parents (a :: b :: rest)) (index / 2)
  | _ => []
termination_by level.length
decreasing_by
  simp only [length_parents, List.length_cons]
  omega

/-- The branch of the leaf at `index`. -/
def branch (leaves : List Hash256) (index : Nat) : Except Error Branch :=
  if index < leaves.length then .ok ⟨siblings leaves index, UInt64.ofNat index⟩
  else .error (.indexOutOfRange index leaves.length)

end LightClient.Merkle
