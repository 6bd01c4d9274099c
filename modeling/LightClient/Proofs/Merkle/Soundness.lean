import LightClient.Proofs.Merkle.Climb

/-!
# Soundness of Merkle branches

A branch that leads to the root of a tree leads there from a leaf of the tree, whoever made the
branch. The argument goes down from the root. A node that is known to stand in a level was hashed
from a pair of the level below, and from no other pair without a collision; so the node that was
climbed from stands in that level, at its index if the level reaches that far. An index beyond the
leaves points into the padding, where nodes are copies of real ones.
-/

namespace LightClient.Merkle

/-- What a tree grants to a node and the siblings above it: the node stands in the level, and if
the index does not point beyond the level, node and siblings are those of the index. -/
structure Vouched (level nodes : List Hash256) (index : Nat) (current : Hash256) : Prop where
  mem : current ∈ level
  getElem? : index < level.length → level[index]? = some current
  siblings_eq : index < level.length → nodes = siblings level index

/-- A pair whose parent stands in the level above is a pair of the level. -/
theorem mem_pairs_of_parent_mem {level : List Hash256} {p : NodePair}
    (hcollision : CollisionFree (pairs level ++ [p])) (hparent : p.parent ∈ parents level) :
    p ∈ pairs level := by
  rw [parents_eq_map] at hparent
  obtain ⟨q, hq, hqp⟩ := List.mem_map.mp hparent
  have heq : q = p := hcollision q (by simp [hq]) p (by simp) hqp
  rwa [← heq]

/-- A pair whose parent stands at a place of the level above is the pair at that place. -/
theorem pairs_getElem?_of_parent {level : List Hash256} {p : NodePair} {i : Nat}
    (hcollision : CollisionFree (pairs level ++ [p]))
    (hparent : (parents level)[i]? = some p.parent) : (pairs level)[i]? = some p := by
  rw [parents_eq_map, List.getElem?_map, Option.map_eq_some_iff] at hparent
  obtain ⟨q, hq, hqp⟩ := hparent
  have heq : q = p := hcollision q (by simp [List.mem_of_getElem? hq]) p (by simp) hqp
  rwa [← heq]

/-- A pair whose parent is granted to stand above `index` consists of the node at `index` and its
sibling. -/
theorem Vouched.current_and_sibling {level above : List Hash256} {index : Nat}
    {current sibling : Hash256}
    (habove : Vouched (parents level) above (index / 2) (orient index current sibling).parent)
    (hcollision : CollisionFree (pairs level ++ [orient index current sibling]))
    (hindex : index < level.length) :
    level[index]? = some current ∧
      level[siblingIndex index level.length]? = some sibling := by
  have hsiblingIndex : siblingIndex index level.length < level.length :=
    siblingIndex_lt (by omega)
  have hcurrent := List.getElem?_eq_getElem hindex
  have hsibling := List.getElem?_eq_getElem hsiblingIndex
  have hclimbed := pairs_getElem?_of_parent hcollision
    (habove.getElem? (half_lt_length_parents hindex))
  have hsame := (pairs_getElem? hcurrent hsibling).symm.trans hclimbed
  obtain ⟨hcurrentEq, hsiblingEq⟩ := orient_inj (Option.some.inj hsame)
  rw [hcurrent, hsibling, hcurrentEq, hsiblingEq]
  exact ⟨rfl, rfl⟩

/-- What is granted to the node above a pair is granted to the node of the pair that was climbed
from. -/
theorem Vouched.descend {a b : Hash256} {rest above : List Hash256} {index : Nat}
    {current sibling : Hash256}
    (habove : Vouched (parents (a :: b :: rest)) above (index / 2)
      (orient index current sibling).parent)
    (hcollision : CollisionFree (pairs (a :: b :: rest) ++ [orient index current sibling])) :
    Vouched (a :: b :: rest) (sibling :: above) index current where
  mem := mem_of_orient_mem_pairs (mem_pairs_of_parent_mem hcollision habove.mem)
  getElem? hindex := (habove.current_and_sibling hcollision hindex).1
  siblings_eq hindex := by
    have hsibling := (habove.current_and_sibling hcollision hindex).2
    simp only [List.length_cons] at hsibling
    rw [siblings_cons_cons, List.getD_eq_getElem?_getD, hsibling,
      ← habove.siblings_eq (half_lt_length_parents hindex)]
    rfl

/-- Whatever climbs to the root of a tree in as many steps as the tree is high started from what
the tree grants. -/
theorem vouched_of_climb_eq_root {level nodes : List Hash256} {index : Nat} {current : Hash256}
    {r : Root} (hroot : rootAbove? level = some r) (hdepth : nodes.length = height level)
    (hclimb : Branch.climb nodes index current = r.hash)
    (hcollision : CollisionFree (hashedPairs level ++ Branch.climbedPairs nodes index current)) :
    Vouched level nodes index current := by
  fun_induction height level generalizing nodes index current r with
  | case1 => simp [rootAbove?] at hroot
  | case2 a =>
    obtain rfl := List.length_eq_zero_iff.mp hdepth
    rw [rootAbove?] at hroot
    obtain rfl := Option.some.inj hroot
    have hcurrent : current = a := hclimb
    subst hcurrent
    exact ⟨by simp, fun hindex => by simp_all, fun _ => by simp [siblings]⟩
  | case3 a b rest ih =>
    cases nodes with
    | nil => simp at hdepth
    | cons sibling above =>
      rw [rootAbove?_cons_cons] at hroot
      obtain ⟨s, hs, rfl⟩ := Option.map_eq_some_iff.mp hroot
      rw [Branch.climb_cons] at hclimb
      rw [hashedPairs, Branch.climbedPairs] at hcollision
      have hdepth' : above.length = height (parents (a :: b :: rest)) := by simpa using hdepth
      obtain ⟨hcollisionHere, hcollisionAbove⟩ :=
        @CollisionFree.split _ _ [orient index current sibling] _ hcollision
      exact (ih hs hdepth' hclimb hcollisionAbove).descend hcollisionHere

/-- A branch that verifies against the root of a list of leaves, with as many nodes as the tree has
levels, starts from one of these leaves; if its index is that of a leaf, it is the branch of that
leaf. The only way around this is a collision among the pairs that were hashed. -/
theorem mem_of_verifies {leaves : List Hash256} {r : Root} {leaf : Hash256} {b : Branch}
    (hroot : root leaves = .ok r) (hdepth : b.depth = height leaves)
    (hverifies : b.verifies leaf r.hash = .ok true)
    (hcollision : CollisionFree (hashedPairs leaves ++ b.hashedPairs leaf)) :
    leaf ∈ leaves ∧ ∀ hindex : b.index.toNat < leaves.length,
      leaf = leaves[b.index.toNat] ∧ branch leaves b.index.toNat = .ok b := by
  have himplied := Branch.verifies_eq_ok_true_iff.mp hverifies
  obtain ⟨_, hclimb⟩ := Branch.impliedRoot_eq_ok_iff.mp himplied
  have hvouched := vouched_of_climb_eq_root (root_eq_ok_iff.mp hroot) hdepth hclimb hcollision
  refine ⟨hvouched.mem, fun hindex => ⟨?_, ?_⟩⟩
  · have hleaf := hvouched.getElem? hindex
    rw [List.getElem?_eq_getElem hindex] at hleaf
    exact (Option.some.inj hleaf).symm
  · have hindexEq : UInt64.ofNat b.index.toNat = b.index := by simp
    unfold branch
    rw [if_pos hindex, ← hvouched.siblings_eq hindex, hindexEq]

/-- The second of two leaves, with the first as its sibling. -/
theorem mem_of_verifies_second_of_two :
    root [.replicate 1, .replicate 2] = .ok ⟨node (.replicate 1) (.replicate 2), false⟩ ∧
      Branch.depth ⟨[.replicate 1], 1⟩ = height [.replicate 1, .replicate 2] ∧
      Branch.verifies ⟨[.replicate 1], 1⟩ (.replicate 2)
        (node (.replicate 1) (.replicate 2)) = .ok true ∧
      CollisionFree (hashedPairs [.replicate 1, .replicate 2] ++
        Branch.hashedPairs ⟨[.replicate 1], 1⟩ (.replicate 2)) ∧
      .replicate 2 ∈ [Hash256.replicate 1, .replicate 2] ∧
      branch [.replicate 1, .replicate 2] 1 = .ok ⟨[.replicate 1], 1⟩ := by
  have hroot : root [.replicate 1, .replicate 2] =
      .ok ⟨node (.replicate 1) (.replicate 2), false⟩ := by
    rw [root_pair]
    rfl
  have hdepth : Branch.depth ⟨[.replicate 1], 1⟩ = height [.replicate 1, .replicate 2] := by
    simp [Branch.depth, height, parents]
  have hverifies : Branch.verifies ⟨[.replicate 1], 1⟩ (.replicate 2)
      (node (.replicate 1) (.replicate 2)) = .ok true := by
    rw [Branch.verifies_eq_ok_true_iff, Branch.impliedRoot_eq_ok_iff]
    exact ⟨by decide, rfl⟩
  have hcollision : CollisionFree (hashedPairs [.replicate 1, .replicate 2] ++
      Branch.hashedPairs ⟨[.replicate 1], 1⟩ (.replicate 2)) := by
    have hclimbed : Branch.hashedPairs ⟨[.replicate 1], 1⟩ (.replicate 2) =
        [(.replicate 1, .replicate 2)] := rfl
    rw [hashedPairs_pair, hclimbed]
    intro p hp q hq _
    rw [List.eq_of_mem_replicate (n := 2) hp, List.eq_of_mem_replicate (n := 2) hq]
  have hgranted := mem_of_verifies hroot hdepth hverifies hcollision
  exact ⟨hroot, hdepth, hverifies, hcollision, hgranted.1, (hgranted.2 (by decide)).2⟩

end LightClient.Merkle
