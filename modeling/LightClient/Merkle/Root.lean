import LightClient.Error

/-!
# Merkle roots

The nodes of a level are paired from the left, and each pair is hashed into a node of the level
above; a node without a partner is paired with itself, until one node is left. Padding makes
different leaf lists share a root: appending a copy of the last leaves can reproduce what padding
would have done. Every such list has a pair of equal nodes somewhere that is no padding, and the
root is then reported as malleated.
-/

namespace LightClient.Merkle

/-- The node above a pair of nodes. -/
def node (left right : Hash256) : Hash256 :=
  hash256Parts [left.bytes, right.bytes]

/-- The level above: pairs from the left are hashed, a last node without partner with itself. -/
def parents : List Hash256 → List Hash256
  | a :: b :: rest => node a b :: parents rest
  | [a] => [node a a]
  | [] => []

/-- Whether two equal nodes form a pair. -/
def hasTwins : List Hash256 → Bool
  | a :: b :: rest => a = b || hasTwins rest
  | _ => false

/-- The level above is half as long, rounded up. -/
theorem length_parents (level : List Hash256) :
    (parents level).length = (level.length + 1) / 2 := by
  fun_induction parents level with
  | case1 a b rest ih =>
    simp only [List.length_cons, ih]
    omega
  | case2 => simp
  | case3 => rfl

/-- The root of a tree, and whether it can be trusted to belong to one list of leaves only. -/
structure Root where
  hash : Hash256
  /-- Two equal nodes were paired somewhere. -/
  malleated : Bool
  deriving DecidableEq

/-- The root above a level, unless the level is empty. -/
def rootAbove? (level : List Hash256) : Option Root :=
  match level with
  | [] => none
  | [a] => some ⟨a, false⟩
  | a :: b :: rest => do
    let above ← rootAbove? (parents (a :: b :: rest))
    return ⟨above.hash, hasTwins (a :: b :: rest) || above.malleated⟩
termination_by level.length
decreasing_by
  simp only [length_parents, List.length_cons]
  omega

/-- The root over a list of leaves. -/
def root (leaves : List Hash256) : Except Error Root :=
  match rootAbove? leaves with
  | some r => .ok r
  | none => .error .emptyMerkleTree

end LightClient.Merkle
