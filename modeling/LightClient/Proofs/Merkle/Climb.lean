import LightClient.Merkle.Branch
import LightClient.Proofs.Merkle.Levels

/-!
# Climbing a branch

Folding a branch hashes one pair on each level: a node and its sibling, oriented by a bit of the
index. In a real level the pair at half a node's index consists of the node and its sibling, which
is where the fold of a branch and the computation of the root meet.
-/

namespace LightClient.Merkle

/-- A node at `index` and its sibling, the left one first. -/
def orient (index : Nat) (current sibling : Hash256) : NodePair :=
  if index % 2 = 0 then (current, sibling) else (sibling, current)

/-- An oriented pair tells which node is which. -/
theorem orient_inj {index : Nat} {current current' sibling sibling' : Hash256}
    (h : orient index current sibling = orient index current' sibling') :
    current = current' ∧ sibling = sibling' := by
  unfold orient at h
  split at h <;> simp_all

/-- A node that is part of an oriented pair of a level stands in the level. -/
theorem mem_of_orient_mem_pairs {level : List Hash256} {index : Nat} {current sibling : Hash256}
    (hmem : orient index current sibling ∈ pairs level) : current ∈ level := by
  have hboth := mem_of_mem_pairs hmem
  unfold orient at hboth
  split at hboth
  · exact hboth.1
  · exact hboth.2

/-! ## Siblings in a level -/

/-- The sibling of a node stands in the level. -/
theorem siblingIndex_lt {index width : Nat} (hwidth : 0 < width) :
    siblingIndex index width < width := by
  unfold siblingIndex
  omega

/-- Two nodes further on in a level that is wider by two, the sibling is two nodes further on. -/
theorem siblingIndex_add_two {index width : Nat} (hwidth : 0 < width) :
    siblingIndex (index + 2) (width + 2) = siblingIndex index width + 2 := by
  unfold siblingIndex
  split <;> split <;> omega

/-- The pair at half a node's index consists of the node and its sibling. -/
theorem pairs_getElem? {level : List Hash256} {index : Nat} {current sibling : Hash256}
    (hcurrent : level[index]? = some current)
    (hsibling : level[siblingIndex index level.length]? = some sibling) :
    (pairs level)[index / 2]? = some (orient index current sibling) := by
  fun_induction pairs level generalizing index with
  | case1 a b rest ih =>
    -- The first two nodes are each other's siblings; the others lie in the rest of the level.
    rcases index with _ | _ | index
    · simp_all [siblingIndex, orient]
    · simp_all [siblingIndex, orient]
    · have hindex : index < rest.length := by
        have := (List.getElem?_eq_some_iff.mp hcurrent).1
        simp only [List.length_cons] at this
        omega
      simp only [List.length_cons] at hsibling
      rw [siblingIndex_add_two (by omega)] at hsibling
      have hhalf : (index + 2) / 2 = index / 2 + 1 := by omega
      have hparity : orient (index + 2) current sibling = orient index current sibling := by
        simp [orient]
      rw [hhalf, hparity, List.getElem?_cons_succ]
      exact ih hcurrent hsibling
  | case2 a =>
    have hindex : index = 0 := by
      have := (List.getElem?_eq_some_iff.mp hcurrent).1
      simp only [List.length_singleton] at this
      omega
    subst hindex
    simp_all [siblingIndex, orient]
  | case3 => simp at hcurrent

/-- The siblings above a node: its own, and those above half its index in the next level. -/
theorem siblings_cons_cons (a b : Hash256) (rest : List Hash256) (index : Nat) :
    siblings (a :: b :: rest) index =
      (a :: b :: rest).getD (siblingIndex index (rest.length + 2)) a ::
        siblings (parents (a :: b :: rest)) (index / 2) := by
  rw [siblings]

namespace Branch

/-- The pairs that are hashed on the way up from a node at `index` past its siblings. -/
def climbedPairs : List Hash256 → (index : Nat) → Hash256 → List NodePair
  | [], _, _ => []
  | sibling :: above, index, current =>
    orient index current sibling ::
      climbedPairs above (index / 2) (orient index current sibling).parent

/-- The pairs that are hashed when the branch is folded over a leaf. -/
def hashedPairs (b : Branch) (leaf : Hash256) : List NodePair :=
  climbedPairs b.nodes b.index.toNat leaf

/-- Climbing hashes a node with its sibling and goes on from the node above. -/
theorem climb_cons (sibling : Hash256) (above : List Hash256) (index : Nat) (current : Hash256) :
    climb (sibling :: above) index current =
      climb above (index / 2) (orient index current sibling).parent := by
  unfold orient NodePair.parent
  by_cases heven : index % 2 = 0 <;> simp [climb, heven]

/-- The fold of siblings over a leaf, read off the bits of the index: on each level the node is the
right one of its pair exactly when the bit of that level is set. -/
def foldBits (nodes : List Hash256) (index : Nat) (leaf : Hash256) : Hash256 :=
  nodes.zipIdx.foldl
    (fun current (sibling, level) =>
      if index.testBit level then node sibling current else node current sibling) leaf

/-- Halving the index on each level reads its bits one after the other. -/
theorem climb_eq_foldBits (nodes : List Hash256) (index : Nat) (leaf : Hash256) :
    climb nodes index leaf = foldBits nodes index leaf := by
  induction nodes generalizing index leaf with
  | nil => rfl
  | cons sibling above ih =>
    have hbit : (index.testBit 0 = true) ↔ ¬index % 2 = 0 := by
      rw [Nat.testBit_zero, decide_eq_true_iff]
      omega
    rw [climb, ih, foldBits, foldBits, List.zipIdx_cons', List.foldl_cons, List.foldl_map]
    simp only [Prod.map, id_eq, Nat.testBit_succ, hbit, ite_not]

/-- A branch implies a root exactly when its index has no more bits than it has nodes. -/
theorem impliedRoot_eq_ok_iff {b : Branch} {leaf root : Hash256} :
    b.impliedRoot leaf = .ok root ↔
      b.index.toNat < 2 ^ b.depth ∧ climb b.nodes b.index.toNat leaf = root := by
  have hfits : b.index.toNat >>> b.depth = 0 ↔ b.index.toNat < 2 ^ b.depth := by
    rw [Nat.shiftRight_eq_div_pow, Nat.div_eq_zero_iff]
    simp
  simp only [impliedRoot]
  by_cases hempty : b.nodes = [] ∧ b.index.toNat ≠ 0
  · have hdepth : b.depth = 0 := by simp [depth, hempty.1]
    have hindex := hempty.2
    rw [if_pos hempty, hdepth]
    simp only [reduceCtorEq, false_iff]
    omega
  · rw [if_neg hempty]
    by_cases hwide : b.index.toNat >>> b.depth = 0 <;> simp [hwide, ← hfits]

/-- A branch leads to a root exactly when that is the root it implies. -/
theorem verifies_eq_ok_true_iff {b : Branch} {leaf root : Hash256} :
    b.verifies leaf root = .ok true ↔ b.impliedRoot leaf = .ok root := by
  unfold verifies
  cases b.impliedRoot leaf with
  | error e => simp [bind, Except.bind]
  | ok implied => simp [bind, Except.bind, pure, Except.pure]

end Branch

end LightClient.Merkle
